import SystemcCompiler.Library.Channel

/-! The calls of the put and get interfaces: what they report, and what they do
to the request signal of their side in a METHOD and in a thread. -/
namespace SystemcCompiler.Fifo
open Channel

/-- What the put side calls in a cycle. -/
inductive PutCall (T : Type) where
  | idle
  | put (data : T)
  | putMask (data : T) (mask : Bool)
  | bPut (data : T)
  | clearPut
  deriving DecidableEq

/-- What the get side calls in a cycle. -/
inductive GetCall where
  | idle
  | get
  | getEnable (enable : Bool)
  | bGet
  | clearGet
  deriving DecidableEq

structure Calls (T : Type) where
  put : PutCall T
  get : GetCall
  deriving DecidableEq

/-- What the calls of a cycle return. -/
structure Returns (T : Type) where
  ready : Bool
  request : Bool
  /-- The data of a put that reported success. -/
  put : Option T
  /-- The data of a get that reported a request. -/
  get : Option T
  /-- The data to peek, when there is a request. -/
  peek : Option T
  deriving DecidableEq

def ports {T : Type} : Ports (Returns T) T where
  accepted r := r.put.toList
  delivered r := r.get.toList

variable {T : Type}

/-- The data a put call reports as stored, given `ready()`. -/
def PutCall.stored (call : PutCall T) (ready : Bool) : Option T :=
  match call with
  | .put data => if ready then some data else none
  | .putMask data mask => if ready && mask then some data else none
  | .bPut data => if ready then some data else none
  | .idle | .clearPut => none

/-- A get call takes the request, given `request()`. -/
def GetCall.taken (call : GetCall) (request : Bool) : Bool :=
  match call with
  | .get => request
  | .getEnable enable => request && enable
  | .bGet => request
  | .idle | .clearGet => false

@[simp] theorem PutCall.stored_false (call : PutCall T) : call.stored false = none := by
  cases call <;> rfl

@[simp] theorem GetCall.taken_false (call : GetCall) : call.taken false = false := by
  cases call <;> rfl

/-- A blocking put that has to wait, given `ready()`. -/
def PutCall.waits (call : PutCall T) (ready : Bool) : Option T :=
  match call with
  | .bPut data => if ready then none else some data
  | _ => none

def GetCall.waits (call : GetCall) (request : Bool) : Bool :=
  match call with
  | .bGet => !request
  | _ => false

/-- A process inside `b_put` goes on with that call. -/
def PutCall.resume (waiting : Option T) (call : PutCall T) : PutCall T :=
  match waiting with
  | some data => .bPut data
  | none => call

def GetCall.resume (waiting : Bool) (call : GetCall) : GetCall :=
  if waiting then .bGet else call

def Calls.resume (putWaiting : Option T) (getWaiting : Bool) (calls : Calls T) : Calls T where
  put := calls.put.resume putWaiting
  get := calls.get.resume getWaiting

/-- `put_req` after a METHOD's call of the put side. -/
def PutCall.methodReq (call : PutCall T) (readyPush held : Bool) : Bool :=
  match call with
  | .put _ => readyPush
  | .putMask _ mask => readyPush && mask
  | .clearPut => false
  | .idle | .bPut _ => held

/-- `get_req` after a METHOD's call of the get side. -/
def GetCall.methodReq (call : GetCall) (outValid held : Bool) : Bool :=
  match call with
  | .get => outValid
  | .getEnable enable => outValid && enable
  | .clearGet => false
  | .idle | .bGet => held

/-- `put_req` after a thread's call of the put side, which toggles it to request. -/
def PutCall.threadReq (call : PutCall T) (readyPush held : Bool) : Bool :=
  match call with
  | .put _ => if readyPush then !held else held
  | .putMask _ mask => if readyPush && mask then !held else held
  | .bPut _ => if readyPush then !held else held
  | .idle | .clearPut => held

/-- `get_req` after a thread's call of the get side. -/
def GetCall.threadReq (call : GetCall) (outValid held : Bool) : Bool :=
  match call with
  | .get => if outValid then !held else held
  | .getEnable enable => if outValid && enable then !held else held
  | .bGet => if outValid then !held else held
  | .idle | .clearGet => held

/-- A data signal that a METHOD's put call assigns under request and else clears. -/
def PutCall.requestData [Inhabited T] (call : PutCall T) (ready : Bool) (held : T) : T :=
  match call with
  | .put data | .putMask data _ => if ready then data else default
  | .clearPut => default
  | .idle | .bPut _ => held

/-- A data register that a thread's put call assigns under request only, as the
request before it may still be there. -/
def PutCall.keptData (call : PutCall T) (ready : Bool) (held : T) : T :=
  match call with
  | .put data | .putMask data _ | .bPut data => if ready then data else held
  | .idle | .clearPut => held

@[simp] theorem PutCall.methodReq_idem (call : PutCall T) (r r' held : Bool) :
    call.methodReq r (call.methodReq r' held) = call.methodReq r held := by
  cases call <;> rfl

@[simp] theorem GetCall.methodReq_idem (call : GetCall) (r r' held : Bool) :
    call.methodReq r (call.methodReq r' held) = call.methodReq r held := by
  cases call <;> rfl

/-- A METHOD's call decides the request; an idle one may do so only without a
request left from before, and `b_put` and `b_get` are for threads. -/
def PutCall.drives (call : PutCall T) (held : Bool) : Bool :=
  match call with
  | .idle => !held
  | .bPut _ => false
  | _ => true

def GetCall.drives (call : GetCall) (held : Bool) : Bool :=
  match call with
  | .idle => !held
  | .bGet => false
  | _ => true

theorem PutCall.methodReq_of_drives {call : PutCall T} {held : Bool} (h : call.drives held)
    (ready : Bool) : call.methodReq ready held = (call.stored ready).isSome := by
  cases call with
  | putMask data mask => cases ready <;> cases mask <;> rfl
  | put data => cases ready <;> rfl
  | idle => simpa [drives, methodReq, stored] using h
  | bPut data => cases h
  | clearPut => rfl

theorem GetCall.methodReq_of_drives {call : GetCall} {held : Bool} (h : call.drives held)
    (valid : Bool) : call.methodReq valid held = call.taken valid := by
  cases call with
  | idle => simpa [drives, methodReq, taken] using h
  | bGet => cases h
  | _ => rfl

theorem PutCall.waits_of_drives {call : PutCall T} {held : Bool} (h : call.drives held)
    (ready : Bool) : call.waits ready = none := by
  cases call with
  | bPut data => cases h
  | _ => rfl

theorem GetCall.waits_of_drives {call : GetCall} {held : Bool} (h : call.drives held)
    (valid : Bool) : call.waits valid = false := by
  cases call with
  | bGet => cases h
  | _ => rfl

theorem PutCall.threadReq_bne (call : PutCall T) (ready held : Bool) :
    (call.threadReq ready held != held) = (call.stored ready).isSome := by
  cases call <;> cases ready <;> cases held <;> simp [threadReq, stored] <;> grind

theorem GetCall.threadReq_bne (call : GetCall) (valid held : Bool) :
    (call.threadReq valid held != held) = call.taken valid := by
  cases call <;> cases valid <;> cases held <;> simp [threadReq, taken]

theorem PutCall.requestData_of_stored [Inhabited T] {call : PutCall T} {held : Bool}
    (h : call.drives held) {ready : Bool} {data : T} (hs : call.stored ready = some data)
    (x : T) : call.requestData ready x = data := by
  cases call with
  | bPut data => cases h
  | _ => simp_all [stored, requestData]

theorem PutCall.keptData_of_stored {call : PutCall T} {ready : Bool} {data : T}
    (hs : call.stored ready = some data) (x : T) : call.keptData ready x = data := by
  cases call <;> simp_all [stored, keptData]

@[simp] theorem PutCall.keptData_false (call : PutCall T) (x : T) : call.keptData false x = x := by
  cases call <;> rfl

@[simp] theorem PutCall.threadReq_false (call : PutCall T) (held : Bool) :
    call.threadReq false held = held := by
  cases call <;> rfl

end SystemcCompiler.Fifo
