import SystemcCompiler.Components.Calls
import SystemcCompiler.Components.PrimBuffer
import SystemcCompiler.Components.WakeUp

/-! The overloads of put and get in the channels, each class with its own bodies:
`put(d)` beside `put(d, mask)` and `get()` beside `get(data, enable)`. -/
namespace SystemcCompiler.Overloads

/-- The put calls of a channel on its signals `σ`, with the events `ε` they notify.
`noPut d` is what `put(d)` leaves when it makes no request. -/
structure PutOverloads (σ ε T : Type) where
  put : T → σ → Bool × σ × ε
  putMask : T → Bool → σ → Bool × σ × ε
  noPut : T → σ → σ × ε

/-- The get calls of a channel; `noGet` is what `get()` leaves without a request. -/
structure GetOverloads (σ ε T : Type) where
  get : σ → T × σ × ε
  getData : Bool → σ → (T × Bool) × σ × ε
  noGet : σ → σ × ε

variable {σ ε T : Type}

def PutOverloads.Agree (o : PutOverloads σ ε T) (d : T) (s : σ) : Prop :=
  o.putMask d true s = o.put d s ∧ o.putMask d false s = (false, o.noPut d s)

def GetOverloads.Agree (o : GetOverloads σ ε T) (s : σ) : Prop :=
  ((o.getData true s).1.1 = (o.get s).1 ∧ (o.getData true s).2 = (o.get s).2) ∧
    (o.getData false s).1.2 = false ∧ (o.getData false s).2 = o.noGet s

/-- Notifications of `sct_prim_fifo`; `update_event` is part of its state. -/
structure Events where
  put : Bool
  get : Bool
  peek : Bool
  deriving DecidableEq

def Events.none : Events := ⟨false, false, false⟩

section
open PrimFifo
variable (c : Config) (peek : Option Bool)

/-- `sct_prim_fifo`; `peek` tells whether there is a peek process and if it is a thread. -/
def primPut (data : T) (s : State T) : Bool × State T × Events :=
  if s.putReady c then
    (true,
     { s with
       putReq := if c.cthreadPut then !s.putReq else !s.putReqD
       putData := data
       updateDue := true },
     { put := c.cthreadPut
       get := putNotifies c s
       peek := putNotifies c s && peek.isSome })
  else (false, { s with putReq := if c.cthreadPut then s.putReq else s.putReqD }, .none)

def primPutMask (data : T) (mask : Bool) (s : State T) : Bool × State T × Events :=
  if mask && s.putReady c then
    (true,
     { s with
       putReq := if c.cthreadPut then !s.putReq else !s.putReqD
       putData := data
       updateDue := true },
     { put := c.cthreadPut
       get := putNotifies c s
       peek := putNotifies c s && peek.isSome })
  else (false, { s with putReq := if c.cthreadPut then s.putReq else s.putReqD }, .none)

def primGet (s : State T) : T × State T × Events :=
  if s.outValid c then
    (s.getData c,
     { s with
       getReq := if c.cthreadGet then !s.getReq else !s.getReqD
       updateDue := true },
     { put := getNotifies c .get s
       get := c.cthreadGet
       peek := peek == some true })
  else
    (s.getData c, { s with getReq := if c.cthreadGet then s.getReq else s.getReqD }, .none)

def primGetData (enable : Bool) (s : State T) : (T × Bool) × State T × Events :=
  if enable && s.outValid c then
    ((s.getData c, true),
     { s with
       getReq := if c.cthreadGet then !s.getReq else !s.getReqD
       updateDue := true },
     { put := getNotifies c (.getData enable) s
       get := c.cthreadGet
       peek := peek == some true })
  else
    ((s.getData c, false),
     { s with getReq := if c.cthreadGet then s.getReq else s.getReqD }, .none)

def primPuts : PutOverloads (State T) Events T where
  put := primPut c peek
  putMask := primPutMask c peek
  noPut _ s := ({ s with putReq := if c.cthreadPut then s.putReq else s.putReqD }, .none)

def primGets : GetOverloads (State T) Events T where
  get := primGet c peek
  getData := primGetData c peek
  noGet s := ({ s with getReq := if c.cthreadGet then s.getReq else s.getReqD }, .none)

/-- The get calls both notify the put side for its own reasons, or neither needs to. -/
def sameWakes (s : State T) : Bool :=
  !s.outValid c || c.syncReady || c.useElemNum || s.elementNumD == c.fifoSize ||
    (c.cthreadGet && s.doPut && s.elementNumD == c.fifoSize - 1) || !s.needsGet c

theorem primPuts_agree (d : T) (s : State T) : (primPuts c peek).Agree d s :=
  ⟨by simp [primPuts, primPut, primPutMask], by simp [primPuts, primPutMask]⟩

theorem getNotifies_eq_iff (s : State T) :
    getNotifies c (.getData true) s = getNotifies c .get s ↔
      (c.syncReady || c.useElemNum || s.elementNumD == c.fifoSize ||
        (c.cthreadGet && s.doPut && s.elementNumD == c.fifoSize - 1) ||
        !s.needsGet c) = true := by
  simp only [getNotifies, State.needsGet]
  generalize (s.elementNumD == c.fifoSize) = full
  generalize (c.cthreadGet && s.doPut && s.elementNumD == c.fifoSize - 1) = filling
  generalize (c.targInit && c.cthreadPut && s.elementNumD == c.fifoSize - 1 ||
    c.targInitSync && !c.cthreadPut && c.cthreadGet) = needs
  cases c.syncReady <;> cases c.useElemNum <;> cases full <;> cases filling <;>
    cases needs <;> simp

theorem primGets_agree_iff (s : State T) :
    (primGets c peek).Agree s ↔ sameWakes c s = true := by
  have hsame := getNotifies_eq_iff c s
  cases hv : s.outValid c with
  | false => simp [GetOverloads.Agree, primGets, primGet, primGetData, hv, sameWakes]
  | true =>
    rw [sameWakes, hv, Bool.not_true, Bool.false_or, ← hsame]
    simp [GetOverloads.Agree, primGets, primGet, primGetData, hv]

end

/-- `sct_fifo`, in the simulation build or in that of the tool. -/
structure FifoKind where
  scTool : Bool
  cthreadPut : Bool
  cthreadGet : Bool

structure FifoSignals (T : Type) where
  putReq : Bool
  dataIn : T
  getReq : Bool
  readyPush : Bool
  outValid : Bool
  dataOut : T

section
variable (k : FifoKind)

def fifoPut (data : T) (s : FifoSignals T) : Bool × FifoSignals T × Unit :=
  (s.readyPush,
   { s with
     dataIn := data
     putReq :=
       if k.cthreadPut then
         if k.scTool then s.readyPush else (if s.readyPush then !s.putReq else s.putReq)
       else s.readyPush }, ())

def fifoPutMask (data : T) (mask : Bool) (s : FifoSignals T) : Bool × FifoSignals T × Unit :=
  (s.readyPush && mask,
   { s with
     dataIn := data
     putReq :=
       if k.cthreadPut then
         if k.scTool then s.readyPush && mask
         else (if s.readyPush && mask then !s.putReq else s.putReq)
       else s.readyPush && mask }, ())

def fifoGet (s : FifoSignals T) : T × FifoSignals T × Unit :=
  (s.dataOut,
   { s with
     getReq :=
       if k.cthreadGet then
         if k.scTool then s.outValid else (if s.outValid then !s.getReq else s.getReq)
       else s.outValid }, ())

def fifoGetData (enable : Bool) (s : FifoSignals T) : (T × Bool) × FifoSignals T × Unit :=
  ((s.dataOut, s.outValid && enable),
   { s with
     getReq :=
       if k.cthreadGet then
         if k.scTool then s.outValid && enable
         else (if s.outValid && enable then !s.getReq else s.getReq)
       else s.outValid && enable }, ())

def fifoPuts : PutOverloads (FifoSignals T) Unit T where
  put := fifoPut k
  putMask := fifoPutMask k
  noPut data s :=
    ({ s with
       dataIn := data
       putReq := if k.cthreadPut && !k.scTool then s.putReq else false }, ())

def fifoGets : GetOverloads (FifoSignals T) Unit T where
  get := fifoGet k
  getData := fifoGetData k
  noGet s := ({ s with getReq := if k.cthreadGet && !k.scTool then s.getReq else false }, ())

theorem fifoPuts_agree (d : T) (s : FifoSignals T) : (fifoPuts k).Agree d s := by
  refine ⟨by simp [fifoPuts, fifoPut, fifoPutMask], ?_⟩
  cases hc : k.cthreadPut <;> cases ht : k.scTool <;> simp [fifoPuts, fifoPutMask, hc, ht]

theorem fifoGets_agree (s : FifoSignals T) : (fifoGets k).Agree s := by
  refine ⟨by simp [fifoGets, fifoGet, fifoGetData], ?_⟩
  cases hc : k.cthreadGet <;> cases ht : k.scTool <;> simp [fifoGets, fifoGetData, hc, ht]

end

structure PipeSignals (T : Type) where
  putReq : Bool
  dataIn : T
  getReq : Bool
  readyPush : Bool
  outValid : Bool
  dataReg : T

section
variable (cthread : Bool)

/-- `sct_pipe`: its put calls assign the data when they are ready, with or without a request. -/
def pipePut [Inhabited T] (data : T) (s : PipeSignals T) : Bool × PipeSignals T × Unit :=
  if s.readyPush then
    (true, { s with putReq := if cthread then !s.putReq else true, dataIn := data }, ())
  else if cthread then (false, s, ())
  else (false, { s with putReq := false, dataIn := default }, ())

def pipePutMask [Inhabited T] (data : T) (mask : Bool) (s : PipeSignals T) :
    Bool × PipeSignals T × Unit :=
  if s.readyPush then
    (mask,
     { s with
       putReq := if cthread then (if mask then !s.putReq else s.putReq) else mask
       dataIn := data }, ())
  else if cthread then (false, s, ())
  else (false, { s with putReq := false, dataIn := default }, ())

def pipeGet (s : PipeSignals T) : T × PipeSignals T × Unit :=
  if s.outValid then
    (s.dataReg, { s with getReq := if cthread then !s.getReq else true }, ())
  else (s.dataReg, { s with getReq := if cthread then s.getReq else false }, ())

def pipeGetData (enable : Bool) (s : PipeSignals T) : (T × Bool) × PipeSignals T × Unit :=
  if s.outValid then
    ((s.dataReg, enable),
     { s with getReq := if cthread then (if enable then !s.getReq else s.getReq) else enable }, ())
  else ((s.dataReg, false), { s with getReq := if cthread then s.getReq else false }, ())

def pipePuts [Inhabited T] : PutOverloads (PipeSignals T) Unit T where
  put := pipePut cthread
  putMask := pipePutMask cthread
  noPut _ s := (if cthread then s else { s with putReq := false, dataIn := default }, ())

def pipeGets : GetOverloads (PipeSignals T) Unit T where
  get := pipeGet cthread
  getData := pipeGetData cthread
  noGet s := ({ s with getReq := if cthread then s.getReq else false }, ())

theorem pipePuts_agree_iff [Inhabited T] (d : T) (s : PipeSignals T) :
    (pipePuts cthread).Agree d s ↔
      s.readyPush = false ∨ d = if cthread then s.dataIn else default := by
  obtain ⟨putReq, dataIn, getReq, readyPush, outValid, dataReg⟩ := s
  cases readyPush <;> cases cthread <;>
    simp [PutOverloads.Agree, pipePuts, pipePut, pipePutMask]

theorem pipeGets_agree (s : PipeSignals T) : (pipeGets cthread).Agree s := by
  cases hv : s.outValid <;> cases cthread <;>
    simp [GetOverloads.Agree, pipeGets, pipeGet, pipeGetData, hv]

end

/-- `sct_initiator`, whose requests go through the synchronization registers or not. -/
structure InitiatorKind where
  cthread : Bool
  chanSync : Bool
  alwaysReady : Bool

structure InitiatorSignals (T : Type) where
  putReq : Bool
  coreData : T
  syncReq : Bool
  syncData : T
  coreReady : Bool

section
variable [Inhabited T] (k : InitiatorKind)

def initiatorPut (data : T) (s : InitiatorSignals T) : Bool × InitiatorSignals T × Unit :=
  if k.chanSync then
    if s.coreReady then
      (true, { s with syncReq := if k.cthread then !s.syncReq else true, syncData := data }, ())
    else if k.cthread then (false, s, ())
    else (false, { s with syncReq := false, syncData := default }, ())
  else
    if k.alwaysReady || s.coreReady then
      (true, { s with putReq := if k.cthread then !s.putReq else true, coreData := data }, ())
    else if k.cthread then (false, s, ())
    else (false, { s with putReq := false, coreData := default }, ())

def initiatorPutMask (data : T) (mask : Bool) (s : InitiatorSignals T) :
    Bool × InitiatorSignals T × Unit :=
  if k.chanSync then
    if s.coreReady then
      (mask,
       { s with
         syncReq := if k.cthread then (if mask then !s.syncReq else s.syncReq) else mask
         syncData := data }, ())
    else if k.cthread then (false, s, ())
    else (false, { s with syncReq := false, syncData := default }, ())
  else
    if k.alwaysReady || s.coreReady then
      (mask,
       { s with
         putReq := if k.cthread then (if mask then !s.putReq else s.putReq) else mask
         coreData := data }, ())
    else if k.cthread then (false, s, ())
    else (false, { s with putReq := false, coreData := default }, ())

def initiatorPuts : PutOverloads (InitiatorSignals T) Unit T where
  put := initiatorPut k
  putMask := initiatorPutMask k
  noPut _ s :=
    (if k.cthread then s
     else if k.chanSync then { s with syncReq := false, syncData := default }
     else { s with putReq := false, coreData := default }, ())

/-- The branch of a put that makes a request. -/
def InitiatorSignals.takes (s : InitiatorSignals T) : Bool :=
  if k.chanSync then s.coreReady else k.alwaysReady || s.coreReady

/-- The data signal a put assigns. -/
def InitiatorSignals.held (s : InitiatorSignals T) : T :=
  if k.chanSync then s.syncData else s.coreData

theorem initiatorPuts_agree_iff (d : T) (s : InitiatorSignals T) :
    (initiatorPuts k).Agree d s ↔
      s.takes k = false ∨ d = if k.cthread then s.held k else default := by
  obtain ⟨cthread, chanSync, alwaysReady⟩ := k
  obtain ⟨putReq, coreData, syncReq, syncData, coreReady⟩ := s
  cases cthread <;> cases chanSync <;> cases alwaysReady <;> cases coreReady <;>
    simp [PutOverloads.Agree, initiatorPuts, initiatorPut, initiatorPutMask,
      InitiatorSignals.takes, InitiatorSignals.held]

end

/-- `sct_target`, which hands its calls over to a FIFO when it has one. -/
structure TargetKind where
  cthread : Bool
  chanSync : Bool
  alwaysReady : Bool
  fifo : FifoKind

structure TargetSignals (T : Type) where
  getReq : Bool
  coreReady : Bool
  coreReq : Bool
  coreReqD : Bool
  coreDataOut : T
  fifo : Option (FifoSignals T)

section
variable (k : TargetKind)

def TargetSignals.available (s : TargetSignals T) : Bool :=
  if k.alwaysReady then (if k.chanSync then s.coreReqD else s.coreReq)
  else !s.coreReady || s.coreReq

def targetGet (s : TargetSignals T) : T × TargetSignals T × Unit :=
  match s.fifo with
  | some fifo =>
    let called := fifoGet k.fifo fifo
    (called.1, { s with fifo := some called.2.1 }, ())
  | none =>
    if s.available k then
      (s.coreDataOut, { s with getReq := if k.cthread then !s.getReq else true }, ())
    else (s.coreDataOut, { s with getReq := if k.cthread then s.getReq else false }, ())

def targetGetData (enable : Bool) (s : TargetSignals T) :
    (T × Bool) × TargetSignals T × Unit :=
  match s.fifo with
  | some fifo =>
    let called := fifoGetData k.fifo enable fifo
    (called.1, { s with fifo := some called.2.1 }, ())
  | none =>
    if s.available k then
      ((s.coreDataOut, enable),
       { s with
         getReq := if k.cthread then (if enable then !s.getReq else s.getReq) else enable }, ())
    else
      ((s.coreDataOut, false), { s with getReq := if k.cthread then s.getReq else false }, ())

def targetGets : GetOverloads (TargetSignals T) Unit T where
  get := targetGet k
  getData := targetGetData k
  noGet s :=
    match s.fifo with
    | some fifo => ({ s with fifo := some ((fifoGets k.fifo).noGet fifo).1 }, ())
    | none => ({ s with getReq := if k.cthread then s.getReq else false }, ())

theorem targetGets_agree (s : TargetSignals T) : (targetGets k).Agree s := by
  cases hf : s.fifo with
  | some fifo =>
    obtain ⟨⟨hdata, hnext⟩, hfalse, hnone⟩ := fifoGets_agree k.fifo fifo
    simp only [fifoGets] at hdata hnext hfalse hnone
    simp only [GetOverloads.Agree, targetGets, targetGet, targetGetData, hf, hdata, hnext, hfalse,
      hnone]
    exact ⟨⟨trivial, trivial⟩, trivial, rfl⟩
  | none =>
    cases hv : s.available k <;> cases hc : k.cthread <;>
      simp [GetOverloads.Agree, targetGets, targetGet, targetGetData, hf, hv, hc]

end

/-- In loosely timed mode the calls of a target and its initiator are those of the buffer. -/
def bufferPuts (c : PrimBuffer.Config) :
    PutOverloads (PrimBuffer.State T) Unit T where
  put data s := ((s.putStep c (.put data)).2.2 == .flag true, (s.putStep c (.put data)).1, ())
  putMask data mask s :=
    ((s.putStep c (.putMask data mask)).2.2 == .flag true,
     (s.putStep c (.putMask data mask)).1, ())
  noPut _ s := (s, ())

def bufferGets (c : PrimBuffer.Config) : GetOverloads (PrimBuffer.State T) Unit T where
  get s := (s.peek, (s.getStep c .get).1, ())
  getData enable s :=
    ((s.peek, enable && s.request c), (s.getStep c (.getEnable enable)).1, ())
  noGet s := (s, ())

theorem bufferPuts_agree (c : PrimBuffer.Config) (d : T) (s : PrimBuffer.State T) :
    (bufferPuts c).Agree d s := by
  cases hr : s.ready c <;>
    simp [PutOverloads.Agree, bufferPuts, PrimBuffer.State.putStep, hr]

theorem bufferGets_agree (c : PrimBuffer.Config) (s : PrimBuffer.State T) :
    (bufferGets c).Agree s := by
  simp [GetOverloads.Agree, bufferGets, PrimBuffer.State.getStep]

section
open Fifo

/-- The request signals these bodies leave are those of the cycle by cycle models. -/
theorem fifoPutMask_req (k : FifoKind) (hsim : k.scTool = false) (data : T) (mask : Bool)
    (s : FifoSignals T) :
    (fifoPutMask k data mask s).2.1.putReq =
      if k.cthreadPut then (PutCall.putMask data mask).threadReq s.readyPush s.putReq
      else (PutCall.putMask data mask).methodReq s.readyPush s.putReq := by
  simp only [fifoPutMask, hsim, PutCall.threadReq, PutCall.methodReq, Bool.false_eq_true, if_false]

theorem fifoGetData_req (k : FifoKind) (hsim : k.scTool = false) (enable : Bool)
    (s : FifoSignals T) :
    (fifoGetData k enable s).2.1.getReq =
      if k.cthreadGet then (GetCall.getEnable enable).threadReq s.outValid s.getReq
      else (GetCall.getEnable enable).methodReq s.outValid s.getReq := by
  simp only [fifoGetData, hsim, GetCall.threadReq, GetCall.methodReq, Bool.false_eq_true, if_false]

theorem pipePutMask_req [Inhabited T] (cthread : Bool) (data : T) (mask : Bool)
    (s : PipeSignals T) :
    let call := PutCall.putMask data mask
    let after := (pipePutMask cthread data mask s).2.1
    after.putReq = (if cthread then call.threadReq s.readyPush s.putReq
        else call.methodReq s.readyPush s.putReq) ∧
      after.dataIn = if cthread then call.keptData s.readyPush s.dataIn
        else call.requestData s.readyPush s.dataIn := by
  cases hr : s.readyPush <;> cases cthread <;>
    simp [pipePutMask, hr, PutCall.threadReq, PutCall.methodReq, PutCall.keptData,
      PutCall.requestData]

end

/-- Where the overloads agree, in every state of every channel: only the gets of a target's
FIFO notify differently, and only a put with mask 0 of a pipe or an initiator leaves its
data behind. -/
theorem overloads_agree_iff [Inhabited T] :
    (∀ c peek d (s : PrimFifo.State T), (primPuts c peek).Agree d s) ∧
    (∀ c peek (s : PrimFifo.State T), (primGets c peek).Agree s ↔ sameWakes c s = true) ∧
    (∀ k d (s : FifoSignals T), (fifoPuts k).Agree d s) ∧
    (∀ k (s : FifoSignals T), (fifoGets k).Agree s) ∧
    (∀ cthread d (s : PipeSignals T), (pipePuts cthread).Agree d s ↔
      s.readyPush = false ∨ d = if cthread then s.dataIn else default) ∧
    (∀ cthread (s : PipeSignals T), (pipeGets cthread).Agree s) ∧
    (∀ k d (s : InitiatorSignals T), (initiatorPuts k).Agree d s ↔
      s.takes k = false ∨ d = if k.cthread then s.held k else default) ∧
    (∀ k (s : TargetSignals T), (targetGets k).Agree s) ∧
    (∀ c d (s : PrimBuffer.State T), (bufferPuts c).Agree d s) ∧
    (∀ c (s : PrimBuffer.State T), (bufferGets c).Agree s) :=
  ⟨primPuts_agree, primGets_agree_iff, fifoPuts_agree, fifoGets_agree,
    fun cthread => pipePuts_agree_iff cthread, pipeGets_agree, initiatorPuts_agree_iff,
    targetGets_agree, bufferPuts_agree, bufferGets_agree⟩

/-- The FIFO of a target between two threads. -/
private def almostFull : PrimFifo.Config where
  fifoSize := 2
  fifoSize_pos := Nat.two_pos
  cthreadPut := true
  cthreadGet := true
  syncValid := false
  syncReady := false
  mode := .targInit

/-- Its state after a put and a period without calls. -/
private def oneElement : PrimFifo.State Nat :=
  (PrimFifo.machine Nat almostFull).run ((default : PrimFifo.State Nat).reset almostFull)
    [⟨⟨false, some (1, true)⟩, ⟨false, none⟩, []⟩, ⟨⟨false, none⟩, ⟨false, none⟩, []⟩]

/-- `get(data, true)` does not notify what `get()` notifies, and `put(7, 0)` of a thread
leaves its data in the register of an initiator. -/
theorem overloads_differ :
    ((primGet almostFull none oneElement).2.2 = ⟨true, true, false⟩ ∧
      (primGetData almostFull none true oneElement).2.2 = ⟨false, true, false⟩ ∧
      ¬(primGets almostFull none).Agree oneElement) ∧
    ¬(initiatorPuts ⟨true, false, false⟩).Agree 7
      (⟨false, 0, false, 0, true⟩ : InitiatorSignals Nat) := by
  refine ⟨⟨rfl, rfl, fun h => ?_⟩, fun h => ?_⟩
  · have hevents := congrArg (fun r => r.2.put) h.1.2
    exact Bool.false_ne_true hevents
  · have hdata := congrArg (fun r => r.2.1.coreData) h.2
    exact absurd hdata (by decide)

end SystemcCompiler.Overloads
