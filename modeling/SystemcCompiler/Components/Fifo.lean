import SystemcCompiler.Components.Calls

/-! Process kinds and flags of `sct_fifo`, and the bounded queue it stands for. -/
namespace SystemcCompiler.Fifo
open Channel

structure Config where
  length : Nat
  length_pos : 0 < length
  cthreadPut : Bool
  cthreadGet : Bool
  syncValid : Bool
  syncReady : Bool
  initBuffer : Bool := false
  /-- Put and get are called by one process. -/
  oneProc : Bool := false

/-- `before_end_of_elaboration` prints no message for an attached and bound FIFO. -/
def Config.accepted (c : Config) : Bool :=
  !(!c.cthreadPut && !c.cthreadGet && !c.syncValid && !c.syncReady) &&
  !(c.cthreadPut && c.syncValid) &&
  !(c.cthreadGet && c.syncReady) &&
  !(c.oneProc && !c.cthreadGet && (!c.syncValid || !c.syncReady))

/-- A put is visible to the get side in the same cycle. -/
def Config.combValid (c : Config) : Bool := !c.cthreadPut && !c.syncValid

/-- A get frees its slot for the put side in the same cycle. -/
def Config.combReady (c : Config) : Bool := !c.cthreadGet && !c.syncReady

theorem Config.not_comb_both {c : Config} (h : c.accepted) :
    c.combValid = false ∨ c.combReady = false := by
  unfold accepted at h
  unfold combValid combReady
  grind

variable {T : Type}

/-- The bounded queue, and the calls in progress at its two ends. -/
structure Queue (T : Type) where
  content : List T
  putWaiting : Option T
  getWaiting : Bool

namespace Queue

def empty : Queue T := ⟨[], none, false⟩

variable (c : Config)

/-- `ready()` and `request()` show the queue as the last cycle left it, and
through the combinational paths also what the other side does in this cycle. -/
def ready (q : Queue T) (call : GetCall) : Bool :=
  q.content.length != c.length || (c.combReady && call.taken (!q.content.isEmpty))

/-- What the get side can take from. -/
def offered (q : Queue T) (calls : Calls T) : List T :=
  if c.combValid then q.content ++ (calls.put.stored (q.ready c calls.get)).toList
  else q.content

def cycle (q : Queue T) (calls : Calls T) : Queue T × Returns T :=
  let ready := q.ready c calls.get
  let stored := calls.put.stored ready
  let offered := q.offered c calls
  let request := !offered.isEmpty
  let taken := calls.get.taken request
  ({ content := (q.content ++ stored.toList).drop taken.toNat
     putWaiting := calls.put.waits ready
     getWaiting := calls.get.waits request },
   { ready, request, put := stored
     get := if taken then offered.head? else none
     peek := offered.head? })

/-- The returns of signals `ready`, `request` and `data` that show the queue. -/
theorem cycle_eq {q : Queue T} (q' : Queue T) {calls : Calls T} {ready request : Bool} {data : T}
    (hready : ready = q.ready c calls.get)
    (hrequest : request = !(q.offered c calls).isEmpty)
    (hdata : request = true → (q.offered c calls).head? = some data)
    (hcontent : q'.content =
      (q.content ++ (calls.put.stored ready).toList).drop (calls.get.taken request).toNat)
    (hput : q'.putWaiting = calls.put.waits ready)
    (hget : q'.getWaiting = calls.get.waits request) :
    q.cycle c calls =
      (q', { ready, request, put := calls.put.stored ready
             get := if calls.get.taken request then some data else none
             peek := if request then some data else none }) := by
  have hpeek : (if request then some data else none) = (q.offered c calls).head? := by
    cases hr : request with
    | true => simp [hdata hr]
    | false =>
      rw [hr] at hrequest
      cases hoffered : q.offered c calls <;> simp_all
  have htaken : (if calls.get.taken request then some data else none) =
      if calls.get.taken request then (q.offered c calls).head? else none := by
    cases hr : request with
    | true => simp [hdata hr]
    | false => simp
  obtain ⟨content', putWaiting', getWaiting'⟩ := q'
  simp only at hcontent hput hget
  rw [htaken, hpeek, hcontent, hput, hget, hready, hrequest]
  rfl

def step (q : Queue T) (calls : Calls T) : Queue T × Returns T :=
  q.cycle c (calls.resume q.putWaiting q.getWaiting)

def machine (T : Type) (c : Config) : Mealy (Calls T) (Returns T) where
  State := Queue T
  step q calls := q.step c calls

theorem offered_prefix (q : Queue T) (calls : Calls T) :
    q.offered c calls <+: q.content ++ (calls.put.stored (q.ready c calls.get)).toList := by
  unfold offered
  split
  · exact List.prefix_refl _
  · exact List.prefix_append _ _

theorem cycle_law (q : Queue T) (calls : Calls T) :
    q.content ++ (q.cycle c calls).2.put.toList =
      (q.cycle c calls).2.get.toList ++ (q.cycle c calls).1.content := by
  have hprefix := q.offered_prefix c calls
  unfold cycle
  dsimp only
  cases hoffered : q.offered c calls with
  | nil => simp
  | cons x rest =>
    rw [hoffered] at hprefix
    obtain ⟨tail, htail⟩ := hprefix
    cases calls.get.taken (!(x :: rest).isEmpty)
    · simp
    · simp [← htail]

theorem cycle_bound (hc : c.accepted) (q : Queue T) (calls : Calls T)
    (h : q.content.length ≤ c.length) : (q.cycle c calls).1.content.length ≤ c.length := by
  unfold cycle
  dsimp only
  rw [List.length_drop, List.length_append]
  cases hstored : calls.put.stored (q.ready c calls.get) with
  | none => simp; omega
  | some data =>
    have hready : q.ready c calls.get := by
      by_contra hnot
      rw [Bool.not_eq_true] at hnot
      rw [hnot] at hstored
      simp at hstored
    unfold ready at hready
    rw [Bool.or_eq_true, bne_iff_ne, Bool.and_eq_true] at hready
    rcases hready with hroom | ⟨hcomb, htaken⟩
    · simp
      omega
    · have hvalid : c.combValid = false := (Config.not_comb_both hc).resolve_right (by simp [hcomb])
      have hoffered : q.offered c calls = q.content := by simp [offered, hvalid]
      simp [hoffered, htaken]
      omega

/-- The queue is a queue, of at most `length` elements. -/
def queueLaw (T : Type) (hc : c.accepted) :
    QueueLaw (machine T c) ports (fun _ _ => True) where
  Inv q := q.content.length ≤ c.length
  content q := q.content
  inv q _ h _ := q.cycle_bound c hc _ h
  law q _ _ _ := q.cycle_law c _

end Queue
end SystemcCompiler.Fifo
