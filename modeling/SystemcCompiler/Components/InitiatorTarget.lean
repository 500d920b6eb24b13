import SystemcCompiler.Components.Calls

/-! A bound pair of `sct_initiator` and `sct_target` without FIFO, the target not
always ready: the handshake over `core_req`, `core_ready` and `core_data`. -/
namespace SystemcCompiler.InitiatorTarget
open Channel Fifo

/-- `bind` leaves the synchronous register in one of the modules: first the
`chan_sync` of the initiator, then that of the target. -/
def bind (initSync targSync alwaysReady : Bool) : Bool × Bool :=
  if alwaysReady then (false, targSync || initSync) else (initSync || targSync, false)

structure Config where
  cthreadPut : Bool
  cthreadGet : Bool
  initSync : Bool
  targSync : Bool

/-- `chan_sync` of the initiator bound to a target that is not always ready. -/
def Config.chanSync (c : Config) : Bool := (bind c.initSync c.targSync false).1

/-- The initiator holds a request in `core_data` until it is taken. -/
def Config.coreHeld (c : Config) : Bool := c.chanSync || c.cthreadPut

variable {T : Type}

structure State (T : Type) where
  -- The initiator
  putReq : Bool
  putReqD : Bool
  initReqD : Bool
  syncReq : Bool
  syncReqD : Bool
  syncData : T
  coreReq : Bool
  coreData : T
  -- The target
  getReq : Bool
  getReqD : Bool
  targReqD : Bool
  coreDataD : T
  coreDataOut : T
  coreReady : Bool
  putWaiting : Option T
  getWaiting : Bool
  deriving Inhabited

namespace State
variable (c : Config)

/-- `req_control` -/
def reqControl (s : State T) : Bool :=
  let a := if c.coreHeld then s.putReq != s.putReqD else s.putReq
  if a then true else if c.coreHeld then s.initReqD else false

/-- `ready_control` -/
def readyControl (s : State T) : Bool :=
  let a := if c.cthreadGet then s.getReq != s.getReqD else s.getReqD
  if a then true else !s.targReqD

/-- The METHODs of both modules, `core_data_mux` last. -/
def control (s : State T) : State T :=
  { s with
    coreReq := s.reqControl c
    coreReady := s.readyControl c
    coreDataOut := if s.readyControl c then s.coreData else s.coreDataD }

def request (s : State T) : Bool := !s.coreReady || s.coreReq

/-- The calls of METHOD sides. -/
def methods [Inhabited T] (calls : Calls T) (s : State T) : State T :=
  { s with
    putReq :=
      if c.coreHeld then s.putReq else calls.put.methodReq s.coreReady s.putReq
    coreData :=
      if c.coreHeld then s.coreData else calls.put.requestData s.coreReady s.coreData
    syncReq :=
      if c.chanSync && !c.cthreadPut then calls.put.methodReq s.coreReady s.syncReq
      else s.syncReq
    syncData :=
      if c.chanSync && !c.cthreadPut then calls.put.requestData s.coreReady s.syncData
      else s.syncData
    getReq := if c.cthreadGet then s.getReq else calls.get.methodReq s.request s.getReq }

/-- The delta cycles between two clock edges: `core_ready`, the put, `core_req`, the get. -/
def settle [Inhabited T] (calls : Calls T) (s : State T) : State T :=
  control c (methods c calls (control c (methods c calls (control c s))))

/-- The synchronous register is moved to `core_data`. -/
def syncMoves (t : State T) : Bool :=
  c.chanSync && (if c.cthreadPut then t.syncReq != t.syncReqD else t.syncReq) && t.coreReady

/-- `sync_thread`, the two `core_thread` and the calls of thread sides, all on
the settled signals. -/
def edge (calls : Calls T) (t : State T) : State T :=
  let resumed := calls.resume t.putWaiting t.getWaiting
  { t with
    putReq :=
      if c.chanSync then (if t.syncMoves c then !t.putReq else t.putReq)
      else if c.cthreadPut then resumed.put.threadReq t.coreReady t.putReq
      else t.putReq
    coreData :=
      if c.chanSync then (if t.syncMoves c then t.syncData else t.coreData)
      else if c.cthreadPut then resumed.put.keptData t.coreReady t.coreData
      else t.coreData
    syncReq :=
      if c.chanSync && c.cthreadPut then resumed.put.threadReq t.coreReady t.syncReq
      else t.syncReq
    syncData :=
      if c.chanSync && c.cthreadPut then resumed.put.keptData t.coreReady t.syncData
      else t.syncData
    syncReqD := if t.syncMoves c && c.cthreadPut then t.syncReq else t.syncReqD
    putReqD := if c.coreHeld then t.putReq else t.putReqD
    initReqD := if c.coreHeld then !t.coreReady && t.coreReq else t.initReqD
    getReqD := t.getReq
    targReqD := !t.coreReady || t.coreReq
    coreDataD := if t.coreReq && t.coreReady then t.coreData else t.coreDataD
    getReq := if c.cthreadGet then resumed.get.threadReq t.request t.getReq else t.getReq
    putWaiting := if c.cthreadPut then resumed.put.waits t.coreReady else t.putWaiting
    getWaiting := if c.cthreadGet then resumed.get.waits t.request else t.getWaiting }

def returns (calls : Calls T) (t : State T) : Returns T where
  ready := t.coreReady
  request := t.request
  put := (calls.resume t.putWaiting t.getWaiting).put.stored t.coreReady
  get :=
    if (calls.resume t.putWaiting t.getWaiting).get.taken t.request then some t.coreDataOut
    else none
  peek := if t.request then some t.coreDataOut else none

/-- Reset of all processes, with the reset calls of both sides. -/
def reset [Inhabited T] (s : State T) : State T :=
  { s with
    putReq := false
    coreData := default
    syncReq := if c.chanSync then false else s.syncReq
    syncData := if c.chanSync then default else s.syncData
    syncReqD := if c.chanSync && c.cthreadPut then false else s.syncReqD
    putReqD := if c.coreHeld then false else s.putReqD
    initReqD := if c.coreHeld then false else s.initReqD
    getReq := false
    getReqD := false
    targReqD := false
    coreDataD := default
    putWaiting := none
    getWaiting := false }

def machine (T : Type) [Inhabited T] (c : Config) : Mealy (Calls T) (Returns T) where
  State := State T
  step s calls :=
    let t := s.settle c calls
    (t.edge c calls, t.returns calls)

/-- The request a METHOD put side drives. -/
def heldPut (s : State T) : Bool := if c.chanSync then s.syncReq else s.putReq

/-- METHOD sides call in every cycle. -/
def allowed (s : State T) (calls : Calls T) : Bool :=
  (c.cthreadPut || calls.put.drives (s.heldPut c)) &&
    (c.cthreadGet || calls.get.drives s.getReq)

/-- A request that waits in `core_data` for the target. -/
def coreFull (s : State T) : Bool := c.coreHeld && s.reqControl c

/-- A put of a thread that waits in the synchronous register. -/
def syncFull (s : State T) : Bool := c.chanSync && c.cthreadPut && s.syncReq != s.syncReqD

/-- The items on their way: in the target, in `core_data`, in the synchronous register. -/
def content (s : State T) : List T :=
  (if s.readyControl c then [] else [s.coreDataD]) ++
    (if s.coreFull c then [s.coreData] else []) ++ (if s.syncFull c then [s.syncData] else [])

structure Inv (s : State T) : Prop where
  putWaiting : s.putWaiting.isSome → c.cthreadPut
  getWaiting : s.getWaiting → c.cthreadGet

end State

namespace State
variable {c : Config}

theorem Inv.resume_put {s : State T} (h : s.Inv c) (hm : c.cthreadPut = false) (calls : Calls T) :
    (calls.resume s.putWaiting s.getWaiting).put = calls.put := by
  cases hw : s.putWaiting with
  | none => rfl
  | some data => simp [h.putWaiting (by simp [hw])] at hm

theorem Inv.resume_get {s : State T} (h : s.Inv c) (hm : c.cthreadGet = false) (calls : Calls T) :
    (calls.resume s.putWaiting s.getWaiting).get = calls.get := by
  cases hw : s.getWaiting with
  | false => rfl
  | true => simp [h.getWaiting hw] at hm

/-- The signals of a cycle against the registers it started with. -/
structure Settled (c : Config) (s t : State T) (calls : Calls T) : Prop where
  coreReady : t.coreReady = s.readyControl c
  coreReq : t.coreReq = t.reqControl c
  dataOut : t.coreDataOut = if t.coreReady then t.coreData else s.coreDataD
  coreFull : t.coreFull c = s.coreFull c
  coreKept : c.coreHeld = true → t.coreData = s.coreData
  syncFull : t.syncFull c = s.syncFull c
  syncKept : c.cthreadPut = true → t.syncData = s.syncData
  putReq : c.cthreadPut = false → c.chanSync = false →
    t.putReq = (calls.put.stored t.coreReady).isSome
  coreData : c.cthreadPut = false → c.chanSync = false →
    ∀ data, calls.put.stored t.coreReady = some data → t.coreData = data
  syncReq : c.cthreadPut = false → c.chanSync = true →
    t.syncReq = (calls.put.stored t.coreReady).isSome
  syncData : c.cthreadPut = false → c.chanSync = true →
    ∀ data, calls.put.stored t.coreReady = some data → t.syncData = data
  getReq : c.cthreadGet = false → t.getReq = calls.get.taken t.request

section
variable [Inhabited T]

theorem methods_readyControl (calls : Calls T) (s : State T) :
    (methods c calls s).readyControl c = s.readyControl c := by
  cases hm : c.cthreadGet <;> simp [readyControl, methods, hm]

/-- The signals once the puts of METHODs are there. -/
def afterPut (c : Config) (calls : Calls T) (s : State T) : State T :=
  control c (methods c calls (control c s))

theorem afterPut_coreReady (calls : Calls T) (s : State T) :
    (afterPut c calls s).coreReady = s.readyControl c :=
  methods_readyControl calls (control c s)

theorem settle_coreReady (calls : Calls T) (s : State T) :
    (settle c calls s).coreReady = s.readyControl c := by
  have hready : (settle c calls s).coreReady =
      (methods c calls (afterPut c calls s)).readyControl c := rfl
  rw [hready, methods_readyControl, afterPut]
  exact methods_readyControl calls (control c s)

theorem settle_putReq (calls : Calls T) (s : State T) :
    (settle c calls s).putReq =
      if c.coreHeld then s.putReq else calls.put.methodReq (s.readyControl c) s.putReq := by
  have hlast : (settle c calls s).putReq =
      if c.coreHeld then (afterPut c calls s).putReq
      else calls.put.methodReq (afterPut c calls s).coreReady (afterPut c calls s).putReq := rfl
  have hfirst : (afterPut c calls s).putReq =
      if c.coreHeld then s.putReq else calls.put.methodReq (s.readyControl c) s.putReq := rfl
  rw [hlast, hfirst, afterPut_coreReady]
  cases c.coreHeld <;> simp

theorem settle_syncReq (calls : Calls T) (s : State T) :
    (settle c calls s).syncReq =
      if c.chanSync && !c.cthreadPut then calls.put.methodReq (s.readyControl c) s.syncReq
      else s.syncReq := by
  have hlast : (settle c calls s).syncReq =
      if c.chanSync && !c.cthreadPut then
        calls.put.methodReq (afterPut c calls s).coreReady (afterPut c calls s).syncReq
      else (afterPut c calls s).syncReq := rfl
  have hfirst : (afterPut c calls s).syncReq =
      if c.chanSync && !c.cthreadPut then calls.put.methodReq (s.readyControl c) s.syncReq
      else s.syncReq := rfl
  rw [hlast, hfirst, afterPut_coreReady]
  cases c.chanSync && !c.cthreadPut <;> simp

theorem settle_getReq (hm : c.cthreadGet = false) (calls : Calls T) (s : State T) :
    (settle c calls s).getReq =
      calls.get.methodReq (settle c calls s).request s.getReq := by
  have hlast : (settle c calls s).getReq =
      if c.cthreadGet then (afterPut c calls s).getReq
      else calls.get.methodReq (afterPut c calls s).request (afterPut c calls s).getReq := rfl
  have hfirst : (afterPut c calls s).getReq =
      if c.cthreadGet then s.getReq
      else calls.get.methodReq (control c s).request s.getReq := rfl
  have hput : (settle c calls s).putReq = (afterPut c calls s).putReq := settle_putReq calls s
  have hreq : (settle c calls s).reqControl c = (afterPut c calls s).reqControl c := by
    simp only [reqControl, hput]
    rfl
  have hrequest : (settle c calls s).request = (afterPut c calls s).request := by
    have hcore : (settle c calls s).coreReq = (afterPut c calls s).coreReq := hreq
    rw [request, request, settle_coreReady, afterPut_coreReady, hcore]
  rw [hlast, hfirst, hrequest, hm]
  simp

theorem settle_settled {s : State T} (h : s.Inv c) {calls : Calls T} (hok : s.allowed c calls) :
    Settled c s (settle c calls s) (calls.resume s.putWaiting s.getWaiting) := by
  simp only [allowed, Bool.and_eq_true, Bool.or_eq_true] at hok
  have hready := settle_coreReady (c := c) calls s
  have hput : c.cthreadPut = false → calls.put.drives (s.heldPut c) = true :=
    fun hm => hok.1.resolve_left (by simp [hm])
  have hget : c.cthreadGet = false → calls.get.drives s.getReq = true :=
    fun hm => hok.2.resolve_left (by simp [hm])
  constructor
  · exact hready
  · rfl
  · rfl
  · cases hm : c.coreHeld <;> simp [coreFull, reqControl, settle, methods, control, hm]
  · intro hm
    simp [settle, methods, control, hm]
  · cases hm : c.cthreadPut <;> simp [syncFull, settle, methods, control, hm]
  · intro hm
    simp [settle, methods, control, hm]
  · intro hm hsync
    have hd := hput hm
    simp only [heldPut, hsync] at hd
    rw [settle_putReq, h.resume_put hm, hready, Config.coreHeld, hm, hsync]
    exact PutCall.methodReq_of_drives hd _
  · intro hm hsync data hdata
    rw [h.resume_put hm, hready] at hdata
    have hin : (settle c calls s).coreData =
        calls.put.requestData (afterPut c calls s).coreReady (afterPut c calls s).coreData := by
      simp [settle, methods, control, afterPut, Config.coreHeld, hm, hsync]
    rw [hin, afterPut_coreReady]
    exact PutCall.requestData_of_stored (hput hm) hdata _
  · intro hm hsync
    have hd := hput hm
    simp only [heldPut, hsync] at hd
    rw [settle_syncReq, h.resume_put hm, hready, hm, hsync]
    exact PutCall.methodReq_of_drives hd _
  · intro hm hsync data hdata
    rw [h.resume_put hm, hready] at hdata
    have hin : (settle c calls s).syncData =
        calls.put.requestData (afterPut c calls s).coreReady (afterPut c calls s).syncData := by
      simp [settle, methods, control, afterPut, hm, hsync]
    rw [hin, afterPut_coreReady]
    exact PutCall.requestData_of_stored (hput hm) hdata _
  · intro hm
    rw [h.resume_get hm, settle_getReq hm]
    exact GetCall.methodReq_of_drives (hget hm) _

end

theorem edge_readyControl {s t : State T} {calls : Calls T}
    (hs : Settled c s t (calls.resume t.putWaiting t.getWaiting)) :
    (edge c calls t).readyControl c =
      ((calls.resume t.putWaiting t.getWaiting).get.taken t.request || !t.request) := by
  have hbne := GetCall.threadReq_bne (calls.resume t.putWaiting t.getWaiting).get t.request t.getReq
  cases hm : c.cthreadGet with
  | true =>
    simp only [readyControl, edge, hm, if_true, hbne]
    cases (calls.resume t.putWaiting t.getWaiting).get.taken t.request <;> simp [request]
  | false =>
    simp only [readyControl, edge, hm, Bool.false_eq_true, if_false, hs.getReq hm]
    cases (calls.resume t.putWaiting t.getWaiting).get.taken t.request <;> simp [request]

/-- The target delivers its request or holds it. -/
theorem edge_target {s t : State T} (calls : Calls T)
    (hs : Settled c s t (calls.resume t.putWaiting t.getWaiting))
    (hkept : t.coreDataD = s.coreDataD) :
    (if t.request then [t.coreDataOut] else []) =
      (if (calls.resume t.putWaiting t.getWaiting).get.taken t.request then some t.coreDataOut
        else none).toList ++
      (if (edge c calls t).readyControl c then [] else [(edge c calls t).coreDataD]) := by
  rw [edge_readyControl hs]
  have hdata : t.request = true → (edge c calls t).coreDataD = t.coreDataOut := by
    intro hr
    have hedge : (edge c calls t).coreDataD =
        if t.coreReq && t.coreReady then t.coreData else t.coreDataD := rfl
    rw [hedge, hs.dataOut, hkept]
    unfold request at hr
    cases hready : t.coreReady <;> simp_all
  cases hr : t.request with
  | false => simp
  | true =>
    rw [hr] at hdata
    cases (calls.resume t.putWaiting t.getWaiting).get.taken true <;> simp [hdata]

/-- What the target can take: its own request, or the one on the wires. -/
theorem front_eq {s t : State T} {calls : Calls T} (hs : Settled c s t calls) :
    (if s.readyControl c then [] else [s.coreDataD]) ++ (if t.coreReq then [t.coreData] else []) =
      (if t.request then [t.coreDataOut] else []) ++
        (if t.coreReady then [] else if t.coreReq then [t.coreData] else []) := by
  rw [← hs.coreReady, hs.dataOut, request]
  cases t.coreReady <;> cases t.coreReq <;> simp

/-- The items behind the target move on when it is ready. -/
theorem edge_initiator {s t : State T} (calls : Calls T)
    (hs : Settled c s t (calls.resume t.putWaiting t.getWaiting)) :
    (if s.coreFull c then [s.coreData] else []) ++ (if s.syncFull c then [s.syncData] else []) ++
        ((calls.resume t.putWaiting t.getWaiting).put.stored t.coreReady).toList =
      (if t.coreReq then [t.coreData] else []) ++
        (if c.coreHeld then (if s.syncFull c then [s.syncData] else []) ++
          ((calls.resume t.putWaiting t.getWaiting).put.stored t.coreReady).toList else []) := by
  cases hheld : c.coreHeld with
  | true =>
    have hreq : t.coreReq = s.coreFull c := by
      rw [hs.coreReq, ← hs.coreFull, coreFull, hheld, Bool.true_and]
    rw [hreq, hs.coreKept hheld]
    simp
  | false =>
    have hm : c.cthreadPut = false ∧ c.chanSync = false := by
      simpa [Config.coreHeld, and_comm] using hheld
    have hreq : t.coreReq =
        ((calls.resume t.putWaiting t.getWaiting).put.stored t.coreReady).isSome := by
      rw [hs.coreReq, reqControl, hheld, ← hs.putReq hm.1 hm.2]
      cases t.putReq <;> simp
    have hdata := hs.coreData hm.1 hm.2
    have hcore : s.coreFull c = false := by simp [coreFull, hheld]
    have hsync : s.syncFull c = false := by simp [syncFull, hm]
    rw [hreq, hcore, hsync]
    cases hstored : (calls.resume t.putWaiting t.getWaiting).put.stored t.coreReady with
    | none => simp
    | some data => simp [hdata data hstored]

/-- A target that is not ready leaves the initiator's registers as they are. -/
theorem edge_stalled {s t : State T} {calls : Calls T}
    (hs : Settled c s t (calls.resume t.putWaiting t.getWaiting)) (hready : t.coreReady = false) :
    (if t.coreReq then [t.coreData] else []) ++ (if s.syncFull c then [s.syncData] else []) =
      (if (edge c calls t).coreFull c then [(edge c calls t).coreData] else []) ++
        (if (edge c calls t).syncFull c then [(edge c calls t).syncData] else []) := by
  have hmoves : t.syncMoves c = false := by simp [syncMoves, hready]
  have hcore : (edge c calls t).coreFull c = t.coreReq := by
    cases hheld : c.coreHeld with
    | true => cases hsync : c.chanSync <;> cases hm : c.cthreadPut <;>
        simp [coreFull, reqControl, edge, hheld, hsync, hm, hmoves, hready]
    | false =>
      have hm : c.cthreadPut = false ∧ c.chanSync = false := by
        simpa [Config.coreHeld, and_comm] using hheld
      have hput := hs.putReq hm.1 hm.2
      simp [coreFull, hs.coreReq, reqControl, hheld, hput, hready]
  have hdata : (edge c calls t).coreData = t.coreData := by
    cases hsync : c.chanSync <;> cases hm : c.cthreadPut <;>
      simp [edge, hsync, hm, hmoves, hready]
  have hsfull : (edge c calls t).syncFull c = s.syncFull c := by
    rw [← hs.syncFull]
    cases hsync : c.chanSync <;> cases hm : c.cthreadPut <;>
      simp [syncFull, edge, hsync, hm, hmoves, hready]
  rw [hcore, hdata, hsfull]
  cases hfull : s.syncFull c with
  | false => rfl
  | true =>
    have hm : c.chanSync = true ∧ c.cthreadPut = true := by
      simp only [syncFull, Bool.and_eq_true] at hfull
      exact hfull.1
    have hkept : (edge c calls t).syncData = s.syncData := by
      rw [← hs.syncKept hm.2]
      simp [edge, hm, hready]
    rw [hkept]

/-- A ready target takes the request, and the items behind it move on. -/
theorem edge_moved {s t : State T} {calls : Calls T}
    (hs : Settled c s t (calls.resume t.putWaiting t.getWaiting)) (hready : t.coreReady = true)
    (hheld : c.coreHeld = true) :
    (if s.syncFull c then [s.syncData] else []) ++
        ((calls.resume t.putWaiting t.getWaiting).put.stored t.coreReady).toList =
      (if (edge c calls t).coreFull c then [(edge c calls t).coreData] else []) ++
        (if (edge c calls t).syncFull c then [(edge c calls t).syncData] else []) := by
  generalize hresumed : calls.resume t.putWaiting t.getWaiting = resumed at hs
  have hbne := fun held => PutCall.threadReq_bne resumed.put t.coreReady held
  have hkept := fun data (h : resumed.put.stored t.coreReady = some data) x =>
    PutCall.keptData_of_stored h x
  cases hsync : c.chanSync with
  | false =>
    have hm : c.cthreadPut = true := by simpa [Config.coreHeld, hsync] using hheld
    have hcore : (edge c calls t).coreFull c = (resumed.put.stored t.coreReady).isSome := by
      rw [← hbne t.putReq]
      simp [coreFull, reqControl, edge, hheld, hsync, hm, hready, hresumed]
      cases resumed.put.threadReq true t.putReq <;> cases t.putReq <;> rfl
    have hnone : s.syncFull c = false ∧ (edge c calls t).syncFull c = false := by
      simp [syncFull, hsync]
    have hdata : (edge c calls t).coreData = resumed.put.keptData t.coreReady t.coreData := by
      simp [edge, hsync, hm, hresumed]
    rw [hcore, hnone.1, hnone.2, hdata]
    cases hstored : resumed.put.stored t.coreReady with
    | none => simp
    | some data => simp [hkept data hstored]
  | true =>
    have hcore : (edge c calls t).coreFull c = t.syncMoves c := by
      cases hmoves : t.syncMoves c <;>
        simp [coreFull, reqControl, edge, hheld, hsync, hmoves, hready]
    have hdata : t.syncMoves c = true → (edge c calls t).coreData = t.syncData := by
      intro hmoves
      simp [edge, hsync, hmoves]
    cases hm : c.cthreadPut with
    | true =>
      have hmoves : t.syncMoves c = s.syncFull c := by
        rw [← hs.syncFull]
        simp [syncMoves, syncFull, hsync, hm, hready]
      have hfull : (edge c calls t).syncFull c = (resumed.put.stored t.coreReady).isSome := by
        rw [← hbne t.syncReq]
        cases hreq : t.syncReq <;> cases hreqD : t.syncReqD <;>
          simp [syncFull, edge, syncMoves, hsync, hm, hready, hresumed, hreq, hreqD]
      have hsdata : (edge c calls t).syncData = resumed.put.keptData t.coreReady t.syncData := by
        simp [edge, hsync, hm, hresumed]
      rw [hcore, hfull, hsdata]
      rw [hmoves] at hdata ⊢
      rw [← hs.syncKept hm]
      have hfirst : (if s.syncFull c then [(edge c calls t).coreData] else []) =
          (if s.syncFull c then [t.syncData] else []) := by
        split
        · rw [hdata ‹_›]
        · rfl
      rw [hfirst]
      cases hstored : resumed.put.stored t.coreReady with
      | none => simp
      | some data => simp [hkept data hstored]
    | false =>
      have hmoves : t.syncMoves c = (resumed.put.stored t.coreReady).isSome := by
        rw [← hs.syncReq hm hsync]
        simp [syncMoves, hsync, hm, hready]
      have hnone : s.syncFull c = false ∧ (edge c calls t).syncFull c = false := by
        simp [syncFull, hm]
      have hin := hs.syncData hm hsync
      rw [hcore, hnone.1, hnone.2]
      rw [hmoves] at hdata ⊢
      cases hstored : resumed.put.stored t.coreReady with
      | none => simp
      | some data => simp [hdata (by simp [hstored]), hin data hstored]

theorem edge_registers {s t : State T} (calls : Calls T)
    (hs : Settled c s t (calls.resume t.putWaiting t.getWaiting)) :
    (if t.coreReady then [] else if t.coreReq then [t.coreData] else []) ++
        (if c.coreHeld then (if s.syncFull c then [s.syncData] else []) ++
          ((calls.resume t.putWaiting t.getWaiting).put.stored t.coreReady).toList else []) =
      (if (edge c calls t).coreFull c then [(edge c calls t).coreData] else []) ++
        (if (edge c calls t).syncFull c then [(edge c calls t).syncData] else []) := by
  cases hready : t.coreReady with
  | true =>
    cases hheld : c.coreHeld with
    | true =>
      have hmoved := edge_moved hs hready hheld
      rw [hready] at hmoved
      simpa using hmoved
    | false =>
      have hm : c.cthreadPut = false := by
        cases hm : c.cthreadPut <;> simp [Config.coreHeld, hm] at hheld ⊢
      simp [coreFull, syncFull, hheld, hm]
  | false =>
    rw [← edge_stalled hs hready]
    cases hheld : c.coreHeld with
    | true => simp
    | false =>
      have hm : c.cthreadPut = false := by
        cases hm : c.cthreadPut <;> simp [Config.coreHeld, hm] at hheld ⊢
      simp [syncFull, hm]

theorem step_law [Inhabited T] {s : State T} (h : s.Inv c) {calls : Calls T}
    (hok : s.allowed c calls) :
    s.content c ++ ports.accepted ((machine T c).step s calls).2 =
      ports.delivered ((machine T c).step s calls).2 ++
        ((machine T c).step s calls).1.content c := by
  have hs := settle_settled h hok
  have htarget := edge_target calls hs rfl
  have hfront := front_eq hs
  have hinit := edge_initiator calls hs
  have hregs := edge_registers calls hs
  generalize ht : settle c calls s = t at *
  have hw : t.putWaiting = s.putWaiting ∧ t.getWaiting = s.getWaiting := by
    rw [← ht]
    exact ⟨rfl, rfl⟩
  have hstep : (machine T c).step s calls = (edge c calls t, returns calls t) := by
    rw [← ht]
    rfl
  rw [hstep]
  simp only [ports, returns]
  rw [content, List.append_assoc, List.append_assoc, ← List.append_assoc _ _ (Option.toList _),
    hinit, ← List.append_assoc, hfront, List.append_assoc, hregs, htarget, content]
  simp only [List.append_assoc]

theorem step_inv [Inhabited T] {s : State T} (h : s.Inv c) (calls : Calls T) :
    ((machine T c).step s calls).1.Inv c := by
  constructor
  · have hedge : ((machine T c).step s calls).1.putWaiting =
        if c.cthreadPut then (calls.resume s.putWaiting s.getWaiting).put.waits
          (settle c calls s).coreReady
        else s.putWaiting := rfl
    rw [hedge]
    intro hw
    split at hw
    · assumption
    · exact h.putWaiting hw
  · have hedge : ((machine T c).step s calls).1.getWaiting =
        if c.cthreadGet then (calls.resume s.putWaiting s.getWaiting).get.waits
          (settle c calls s).request
        else s.getWaiting := rfl
    rw [hedge]
    intro hw
    split at hw
    · assumption
    · exact h.getWaiting hw

def queueLaw (T : Type) [Inhabited T] (c : Config) :
    QueueLaw (machine T c) ports (fun s calls => s.allowed c calls) where
  Inv s := s.Inv c
  content s := s.content c
  inv _ calls h _ := step_inv h calls
  law _ _ h hok := step_law h hok

/-- One item in the target, and one in each register of the initiator. -/
theorem content_length_le (s : State T) :
    (s.content c).length ≤ 1 + c.cthreadPut.toNat + c.chanSync.toNat := by
  have htarget : (if s.readyControl c then [] else [s.coreDataD]).length ≤ 1 := by
    split <;> simp
  have hcore : (if s.coreFull c then [s.coreData] else []).length ≤ c.coreHeld.toNat := by
    cases hheld : c.coreHeld
    · simp [coreFull, hheld]
    · split <;> simp
  have hsync : (if s.syncFull c then [s.syncData] else []).length ≤
      (c.chanSync && c.cthreadPut).toNat := by
    cases hm : c.chanSync && c.cthreadPut
    · simp [syncFull, hm]
    · split <;> simp
  have hsum : c.coreHeld.toNat + (c.chanSync && c.cthreadPut).toNat =
      c.cthreadPut.toNat + c.chanSync.toNat := by
    unfold Config.coreHeld
    cases c.chanSync <;> cases c.cthreadPut <;> rfl
  rw [content, List.length_append, List.length_append]
  omega

theorem reset_inv [Inhabited T] (s : State T) : (s.reset c).Inv c where
  putWaiting hw := by cases hw
  getWaiting hw := by cases hw

theorem reset_content [Inhabited T] (s : State T) : (s.reset c).content c = [] := by
  have htarget : (s.reset c).readyControl c = true := by
    cases hm : c.cthreadGet <;> simp [readyControl, reset, hm]
  have hcore : (s.reset c).coreFull c = false := by
    cases hm : c.coreHeld <;> simp [coreFull, reqControl, reset, hm]
  have hsync : (s.reset c).syncFull c = false := by
    cases hm : c.chanSync <;> cases hp : c.cthreadPut <;> simp [syncFull, reset, hm, hp]
  rw [content, htarget, hcore, hsync]
  rfl

/-- Items arrive in put order; those on their way are in the registers of the pair. -/
theorem handshake_in_order [Inhabited T] (c : Config) (s : State T) {calls : List (Calls T)}
    (hok : (machine T c).EveryStep (fun s calls => s.allowed c calls) (s.reset c) calls) :
    let returned := (machine T c).outputs (s.reset c) calls
    let final := (machine T c).run (s.reset c) calls
    returned.flatMap ports.delivered <+: returned.flatMap ports.accepted ∧
    returned.flatMap ports.accepted =
      returned.flatMap ports.delivered ++ final.content c ∧
    (returned.flatMap ports.accepted).length ≤
      (returned.flatMap ports.delivered).length + (1 + c.cthreadPut.toNat + c.chanSync.toNat) := by
  intro returned final
  have heq := (queueLaw T c).accepted_eq (reset_inv s) (reset_content s) hok
  refine ⟨(queueLaw T c).delivered_leads (reset_inv s) (reset_content s) hok, heq, ?_⟩
  rw [show returned.flatMap ports.accepted = _ from heq, List.length_append]
  exact Nat.add_le_add_left (content_length_le _) _

theorem handshake_in_order_sync :
    let c : Config :=
      { cthreadPut := true, cthreadGet := false, initSync := false, targSync := true }
    let calls : List (Calls Nat) :=
      [⟨.put 1, .clearGet⟩, ⟨.bPut 2, .clearGet⟩, ⟨.put 3, .clearGet⟩, ⟨.put 4, .get⟩,
       ⟨.putMask 5 true, .getEnable true⟩, ⟨.clearPut, .get⟩]
    let returned := (machine Nat c).outputs (reset c default) calls
    returned.flatMap ports.delivered <+: returned.flatMap ports.accepted := by
  intro c calls returned
  have hok : (machine Nat c).EveryStep (fun s calls => s.allowed c calls) (reset c default) calls :=
    ⟨rfl, rfl, rfl, rfl, rfl, rfl, trivial⟩
  exact (handshake_in_order c default hok).1

/-- A thread's initiator with the synchronous register has three items on their
way, and a METHOD that makes no call sends its item again. -/
theorem three_items_and_idle_method :
    (let c : Config :=
      { cthreadPut := true, cthreadGet := true, initSync := true, targSync := false }
     let calls : List (Calls Nat) := [⟨.put 1, .idle⟩, ⟨.put 2, .idle⟩, ⟨.put 3, .idle⟩]
     let returned := (machine Nat c).outputs (reset c default) calls
     returned.flatMap ports.accepted = [1, 2, 3] ∧ returned.flatMap ports.delivered = [] ∧
      ¬ (returned.flatMap ports.accepted).length ≤
        (returned.flatMap ports.delivered).length + 2) ∧
    (let c : Config :=
      { cthreadPut := false, cthreadGet := true, initSync := false, targSync := false }
     let calls : List (Calls Nat) := [⟨.put 5, .get⟩, ⟨.idle, .get⟩]
     let returned := (machine Nat c).outputs (reset c default) calls
     returned.flatMap ports.accepted = [5] ∧ returned.flatMap ports.delivered = [5, 5] ∧
      ¬ returned.flatMap ports.delivered <+: returned.flatMap ports.accepted) := by
  decide

end State
end SystemcCompiler.InitiatorTarget
