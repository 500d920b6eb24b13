import Mathlib.Algebra.Group.Nat.Defs
import SystemcCompiler.Library.Ring
import SystemcCompiler.Components.Fifo

/-! The simulation build of the cycle accurate `sct_fifo`: toggle requests of
thread sides, registered one clock later, and combinational METHOD sides. -/
namespace SystemcCompiler.Fifo
open Channel

/-- Number of bits needed to store the value. -/
def sctNbits (x : Nat) : Nat := if x = 0 then 0 else x.log2 + 1

/-- Index width for `n` elements, not less than one. -/
def sctAddrbits1 (n : Nat) : Nat := if n < 2 then 1 else (n - 1).log2 + 1

namespace Config
variable (c : Config)

/-- Conversion to `Indx_t`. -/
def toIndx (n : Nat) : Nat := n % 2 ^ sctAddrbits1 c.length

/-- Conversion to `ElemNum_t`. -/
def toElemNum (n : Nat) : Nat := n % 2 ^ sctNbits c.length

/-- Index increment of `syncProc` and `asyncProc`. -/
def nextIndx (i : Nat) : Nat := if i = c.length - 1 then 0 else c.toIndx (i + 1)

/-- `element_num_d - 1` and `element_num_d + 1` in the type of the signal. -/
def elemNumDec (n : Nat) : Nat := c.toElemNum (n + 2 ^ sctNbits c.length - 1)
def elemNumInc (n : Nat) : Nat := c.toElemNum (n + 1)

end Config

variable {T : Type}

/-- `data_in` after a METHOD's call of the put side. -/
def PutCall.methodData [Inhabited T] (call : PutCall T) (held : T) : T :=
  match call with
  | .put data | .putMask data _ => data
  | .clearPut => default
  | .idle | .bPut _ => held

/-- `data_in` after a thread's call of the put side; `b_put` assigns it once,
before it waits. -/
def PutCall.threadData [Inhabited T] (waiting : Option T) (call : PutCall T) (held : T) : T :=
  match waiting, call with
  | some _, _ => held
  | none, .put data | none, .putMask data _ | none, .bPut data => data
  | none, .clearPut => default
  | none, .idle => held

/-- The signals of the FIFO and the blocking calls its thread sides are in. -/
structure Sim (T : Type) where
  putReq : Bool
  getReq : Bool
  putReqD : Bool
  getReqD : Bool
  dataIn : T
  dataOut : T
  readyPush : Bool
  outValid : Bool
  popIndx : Nat
  pushIndx : Nat
  elementNum : Nat
  elementNumD : Nat
  buffer : Nat → T
  putWaiting : Option T
  getWaiting : Bool
  deriving Inhabited

namespace Sim
variable [Inhabited T] (c : Config)

def push (s : Sim T) : Bool := if c.cthreadPut then s.putReq != s.putReqD else s.putReq
def pop (s : Sim T) : Bool := if c.cthreadGet then s.getReq != s.getReqD else s.getReq

def asyncProc (s : Sim T) : Sim T :=
  let notEmpty := s.elementNumD != 0
  let notOne := s.elementNumD != 1
  let notFullOne := s.elementNumD != c.length - 1
  let notFull := s.elementNumD != c.length
  let push := s.push c
  let pop := s.pop c
  -- A pop of a thread is performed at the next clock edge
  let outValid := if c.cthreadGet && pop then notEmpty && notOne else notEmpty
  let popIndx := if c.cthreadGet && pop then c.nextIndx s.popIndx else s.popIndx
  let readyPush := if c.cthreadPut && push then notFull && notFullOne else notFull
  { s with
    outValid := if !c.syncValid then push || outValid else outValid
    dataOut := if !c.syncValid && !outValid then s.dataIn else s.buffer popIndx
    readyPush := if !c.syncReady then pop || readyPush else readyPush
    elementNum :=
      if pop && !push then c.elemNumDec s.elementNumD
      else if !pop && push then c.elemNumInc s.elementNumD
      else s.elementNumD }

def syncProc (s : Sim T) : Sim T :=
  let push := s.push c
  let pop := s.pop c
  { s with
    popIndx := if pop then c.nextIndx s.popIndx else s.popIndx
    buffer := if push then Function.update s.buffer s.pushIndx s.dataIn else s.buffer
    pushIndx := if push then c.nextIndx s.pushIndx else s.pushIndx
    putReqD := if c.cthreadPut then s.putReq else s.putReqD
    getReqD := if c.cthreadGet then s.getReq else s.getReqD
    elementNumD := s.elementNum }

def putMethod (call : PutCall T) (s : Sim T) : Sim T :=
  { s with
    putReq := if c.cthreadPut then s.putReq else call.methodReq s.readyPush s.putReq
    dataIn := if c.cthreadPut then s.dataIn else call.methodData s.dataIn }

def getMethod (call : GetCall) (s : Sim T) : Sim T :=
  { s with
    getReq := if c.cthreadGet then s.getReq else call.methodReq s.outValid s.getReq }

def methods (calls : Calls T) (s : Sim T) : Sim T :=
  getMethod c calls.get (putMethod c calls.put s)

/-- The delta cycles between two clock edges. -/
def settle (calls : Calls T) (s : Sim T) : Sim T :=
  asyncProc c (methods c calls (asyncProc c (methods c calls (asyncProc c s))))

/-- The put side of a thread at the clock edge: reads `t`, writes into `s`. -/
def putThread (call : PutCall T) (t s : Sim T) : Sim T :=
  let resumed := call.resume t.putWaiting
  { s with
    putReq := if c.cthreadPut then resumed.threadReq t.readyPush t.putReq else s.putReq
    dataIn := if c.cthreadPut then call.threadData t.putWaiting t.dataIn else s.dataIn
    putWaiting := if c.cthreadPut then resumed.waits t.readyPush else s.putWaiting }

/-- The get side of a thread at the clock edge: reads `t`, writes into `s`. -/
def getThread (call : GetCall) (t s : Sim T) : Sim T :=
  let resumed := call.resume t.getWaiting
  { s with
    getReq := if c.cthreadGet then resumed.threadReq t.outValid t.getReq else s.getReq
    getWaiting := if c.cthreadGet then resumed.waits t.outValid else s.getWaiting }

def edge (calls : Calls T) (t : Sim T) : Sim T :=
  getThread c calls.get t (putThread c calls.put t (syncProc c t))

/-- What the calls return on the settled signals. -/
def returns (calls : Calls T) (t : Sim T) : Returns T where
  ready := t.readyPush
  request := t.outValid
  put := (calls.resume t.putWaiting t.getWaiting).put.stored t.readyPush
  get :=
    if (calls.resume t.putWaiting t.getWaiting).get.taken t.outValid then some t.dataOut
    else none
  peek := if t.outValid then some t.dataOut else none

/-- Reset of `syncProc`, with the reset calls of both sides. -/
def reset (s : Sim T) : Sim T :=
  { s with
    popIndx := 0
    pushIndx := 0
    putReqD := if c.cthreadPut then false else s.putReqD
    getReqD := if c.cthreadGet then false else s.getReqD
    elementNumD := 0
    buffer := fun i =>
      if i = 0 ∨ (c.initBuffer ∧ i < c.length) then default else s.buffer i
    putReq := false
    getReq := false
    dataIn := default
    putWaiting := none
    getWaiting := false }

def machine (T : Type) [Inhabited T] (c : Config) : Mealy (Calls T) (Returns T) where
  State := Sim T
  step s calls :=
    let t := s.settle c calls
    (t.edge c calls, t.returns calls)

end Sim

namespace Config
variable {c : Config}

theorem nextIndx_eq {i : Nat} (h : i < c.length) : c.nextIndx i = (i + 1) % c.length := by
  have hw : i ≠ c.length - 1 → i + 1 < 2 ^ sctAddrbits1 c.length := by
    intro hi
    have hlt : i + 1 ≤ c.length - 1 := by omega
    unfold sctAddrbits1
    rw [if_neg (by omega)]
    exact Nat.lt_of_le_of_lt hlt Nat.lt_log2_self
  rw [← Ring.next_eq h, nextIndx, toIndx]
  split
  · rfl
  · rename_i hi
    rw [Nat.mod_eq_of_lt (hw hi)]

/-- `element_num` of `asyncProc`, when the push has room and the pop an element. -/
theorem elemNum_eq {num : Nat} {push pop : Bool} (hle : num ≤ c.length)
    (hroom : num + push.toNat ≤ c.length + pop.toNat) (hstored : pop.toNat ≤ num + push.toNat) :
    (if pop && !push then c.elemNumDec num
      else if !pop && push then c.elemNumInc num else num) = num + push.toNat - pop.toNat := by
  have hwidth : c.length < 2 ^ sctNbits c.length := by
    have := c.length_pos
    rw [sctNbits, if_neg (by omega)]
    exact Nat.lt_log2_self
  cases pop <;> cases push <;> simp [elemNumDec, elemNumInc, toElemNum] at hroom hstored ⊢
  · exact Nat.mod_eq_of_lt (by omega)
  · have hwrap : num + 2 ^ sctNbits c.length - 1 = (num - 1) + 2 ^ sctNbits c.length := by omega
    rw [hwrap, Nat.add_mod_right]
    exact Nat.mod_eq_of_lt (by omega)

end Config

@[simp] theorem PutCall.methodData_idem [Inhabited T] (call : PutCall T) (held : T) :
    call.methodData (call.methodData held) = call.methodData held := by
  cases call <;> rfl

theorem PutCall.methodData_of_stored [Inhabited T] {call : PutCall T} {held : Bool}
    (h : call.drives held) {ready : Bool} {data : T} (hs : call.stored ready = some data)
    (x : T) : call.methodData x = data := by
  cases call with
  | bPut data => cases h
  | _ => simp_all [stored, methodData]

namespace Sim

section
variable (c : Config)

/-- A thread's push or pop that the next clock edge performs. -/
def putPending (s : Sim T) : Bool := c.cthreadPut && s.push c
def getPending (s : Sim T) : Bool := c.cthreadGet && s.pop c

/-- The stored elements with the pending push, without the pending pop. -/
def content (s : Sim T) : List T :=
  (Ring.contents c.length s.buffer s.popIndx s.elementNumD ++
    List.replicate (s.putPending c).toNat s.dataIn).drop (s.getPending c).toNat

structure Inv (s : Sim T) : Prop where
  popIndx_lt : s.popIndx < c.length
  pushIndx_eq : s.pushIndx = (s.popIndx + s.elementNumD) % c.length
  room : s.elementNumD + (s.putPending c).toNat ≤ c.length
  stored : (s.getPending c).toNat ≤ s.elementNumD
  putWaiting : ∀ data, s.putWaiting = some data → c.cthreadPut ∧ s.dataIn = data
  getWaiting : s.getWaiting → c.cthreadGet

end

section
variable {c : Config}

theorem content_length (s : Sim T) :
    (s.content c).length =
      s.elementNumD + (s.putPending c).toNat - (s.getPending c).toNat := by
  simp [content]

theorem Inv.content_le {s : Sim T} (h : s.Inv c) : (s.content c).length ≤ c.length := by
  have hroom := h.room
  rw [content_length]
  omega

/-- `outValid` and `popIndx` of `asyncProc`: the stored element a get sees. -/
def frontValid (c : Config) (s : Sim T) : Bool :=
  if s.getPending c then s.elementNumD != 0 && s.elementNumD != 1 else s.elementNumD != 0

def frontIndx (c : Config) (s : Sim T) : Nat :=
  if s.getPending c then c.nextIndx s.popIndx else s.popIndx

theorem content_of_frontValid {s : Sim T} (h : s.Inv c) (hv : s.frontValid c = true) :
    (s.content c).head? = some (s.buffer (s.frontIndx c)) := by
  have hlt : (s.getPending c).toNat < s.elementNumD := by
    unfold frontValid at hv
    cases hg : s.getPending c <;> simp [hg] at hv ⊢ <;> omega
  have hidx : s.frontIndx c = (s.popIndx + (s.getPending c).toNat) % c.length := by
    unfold frontIndx
    cases hg : s.getPending c
    · simp [Nat.mod_eq_of_lt h.popIndx_lt]
    · simp [Config.nextIndx_eq h.popIndx_lt]
  rw [content, List.head?_drop, List.getElem?_append_left (by simpa using hlt),
    Ring.contents_get _ _ _ _ _ hlt, hidx]

theorem content_of_not_frontValid {s : Sim T} (h : s.Inv c) (hv : s.frontValid c = false) :
    s.content c = List.replicate (s.putPending c).toNat s.dataIn := by
  have heq : (s.getPending c).toNat = s.elementNumD := by
    have hle := h.stored
    unfold frontValid at hv
    cases hg : s.getPending c <;> simp [hg] at hv hle ⊢ <;> omega
  rw [content, List.drop_left' (by simp [heq])]

theorem content_isEmpty {s : Sim T} (h : s.Inv c) :
    (s.content c).isEmpty = !(s.putPending c || s.frontValid c) := by
  cases hv : s.frontValid c
  · rw [content_of_not_frontValid h hv]
    cases s.putPending c <;> rfl
  · have := content_of_frontValid h hv
    cases hc : s.content c <;> simp_all

/-- `readyPush` of `asyncProc`. -/
def roomReady (c : Config) (s : Sim T) : Bool :=
  if s.putPending c then s.elementNumD != c.length && s.elementNumD != c.length - 1
  else s.elementNumD != c.length

theorem roomReady_eq {s : Sim T} (h : s.Inv c) :
    (s.getPending c || s.roomReady c) = ((s.content c).length != c.length) := by
  have hroom := h.room
  have hstored := h.stored
  have hpos := c.length_pos
  rw [content_length, roomReady, Bool.eq_iff_iff]
  cases hp : s.putPending c <;> cases hg : s.getPending c <;> simp [hp, hg] at hroom hstored ⊢ <;>
    omega

/-- `asyncProc` has nothing left to do. -/
structure AsyncDone (c : Config) (t : Sim T) : Prop where
  outValid : t.outValid = if !c.syncValid then t.push c || t.frontValid c else t.frontValid c
  dataOut : t.dataOut =
    if !c.syncValid && !t.frontValid c then t.dataIn else t.buffer (t.frontIndx c)
  readyPush : t.readyPush = if !c.syncReady then t.pop c || t.roomReady c else t.roomReady c
  elementNum : t.elementNum =
    if t.pop c && !t.push c then c.elemNumDec t.elementNumD
    else if !t.pop c && t.push c then c.elemNumInc t.elementNumD else t.elementNumD

section
variable {t : Sim T} (hc : c.accepted) (h : t.Inv c) (ha : t.AsyncDone c)
include hc h ha

theorem outValid_of_not_comb (hcomb : c.combValid = false) :
    t.outValid = !(t.content c).isEmpty := by
  rw [ha.outValid, content_isEmpty h, putPending]
  unfold Config.combValid at hcomb
  unfold Config.accepted at hc
  grind

theorem readyPush_of_not_comb (hcomb : c.combReady = false) :
    t.readyPush = ((t.content c).length != c.length) := by
  rw [ha.readyPush, ← roomReady_eq h, getPending]
  unfold Config.combReady at hcomb
  unfold Config.accepted at hc
  grind

omit hc in
theorem outValid_of_comb (hcomb : c.combValid = true) :
    t.outValid = (t.push c || !(t.content c).isEmpty) := by
  rw [ha.outValid, content_isEmpty h, putPending]
  unfold Config.combValid at hcomb
  grind

omit hc in
theorem readyPush_of_comb (hcomb : c.combReady = true) :
    t.readyPush = (t.pop c || (t.content c).length != c.length) := by
  rw [ha.readyPush, ← roomReady_eq h, getPending]
  unfold Config.combReady at hcomb
  grind
end

/-- METHOD sides call in every cycle, if only to clear. -/
def allowed (c : Config) (s : Sim T) (calls : Calls T) : Bool :=
  (c.cthreadPut || calls.put.drives s.putReq) && (c.cthreadGet || calls.get.drives s.getReq)

theorem drives_put {s : Sim T} {calls : Calls T} (hok : s.allowed c calls)
    (hm : c.cthreadPut = false) : calls.put.drives s.putReq := by
  simp only [allowed, hm, Bool.false_or, Bool.and_eq_true] at hok
  exact hok.1

theorem drives_get {s : Sim T} {calls : Calls T} (hok : s.allowed c calls)
    (hm : c.cthreadGet = false) : calls.get.drives s.getReq := by
  simp only [allowed, hm, Bool.false_or, Bool.and_eq_true] at hok
  exact hok.2

/-- The METHOD sides' requests are what their calls report. -/
structure Driven (c : Config) (t : Sim T) (calls : Calls T) : Prop where
  push : c.cthreadPut = false → t.push c = (calls.put.stored t.readyPush).isSome
  dataIn : c.cthreadPut = false → ∀ data, calls.put.stored t.readyPush = some data →
    t.dataIn = data
  pop : c.cthreadGet = false → t.pop c = calls.get.taken t.outValid
  putWaits : c.cthreadPut = false → calls.put.waits t.readyPush = none
  getWaits : c.cthreadGet = false → calls.get.waits t.outValid = false

theorem Inv.resume_put {s : Sim T} (h : s.Inv c) (hm : c.cthreadPut = false) (calls : Calls T) :
    (calls.resume s.putWaiting s.getWaiting).put = calls.put := by
  cases hw : s.putWaiting with
  | none => rfl
  | some data => simp [(h.putWaiting data hw).1] at hm

theorem Inv.resume_get {s : Sim T} (h : s.Inv c) (hm : c.cthreadGet = false) (calls : Calls T) :
    (calls.resume s.putWaiting s.getWaiting).get = calls.get := by
  cases hw : s.getWaiting with
  | false => rfl
  | true => simp [h.getWaiting hw] at hm

/-- The queue a state stands for. -/
def toQueue (c : Config) (s : Sim T) : Queue T :=
  ⟨s.content c, s.putWaiting, s.getWaiting⟩

/-- What a valid output shows is the oldest element, counting a put of the cycle. -/
theorem dataOut_head {t : Sim T} {calls : Calls T} (h : t.Inv c) (ha : t.AsyncDone c)
    (hd : t.Driven c calls) (hv : t.outValid = true) :
    (t.content c ++ (calls.put.stored t.readyPush).toList).head? = some t.dataOut := by
  cases hfront : t.frontValid c with
  | true =>
    have hhead := content_of_frontValid h hfront
    rw [List.head?_append, hhead, ha.dataOut, hfront]
    simp
  | false =>
    -- Nothing stored: the data comes from the put side
    have hnil := content_of_not_frontValid h hfront
    have hsync : c.syncValid = false := by
      have := ha.outValid
      grind
    have hpush : t.push c = true := by
      have := ha.outValid
      grind
    rw [ha.dataOut, hfront, hsync, hnil, putPending]
    cases hput : c.cthreadPut with
    | true => simp [hpush]
    | false =>
      obtain ⟨data, hdata⟩ := Option.isSome_iff_exists.mp ((hd.push hput).symm.trans hpush)
      simp [hdata, hd.dataIn hput data hdata]

section
variable {t : Sim T} {calls : Calls T} (hc : c.accepted) (h : t.Inv c) (ha : t.AsyncDone c)
  (hd : t.Driven c calls)
include hc h ha hd

theorem readyPush_eq : t.readyPush = (t.toQueue c).ready c calls.get := by
  rw [Queue.ready, toQueue]
  cases hcomb : c.combReady with
  | false => simp [readyPush_of_not_comb hc h ha hcomb]
  | true =>
    have hvalid := (Config.not_comb_both hc).resolve_right (by simp [hcomb])
    have hget : c.cthreadGet = false := by
      unfold Config.combReady at hcomb
      grind
    rw [readyPush_of_comb h ha hcomb, hd.pop hget, outValid_of_not_comb hc h ha hvalid,
      Bool.or_comm]
    rfl

theorem offered_eq_of_comb (hcomb : c.combValid = true) :
    (t.toQueue c).offered c calls =
      t.content c ++ (calls.put.stored t.readyPush).toList := by
  rw [Queue.offered, if_pos hcomb, ← readyPush_eq hc h ha hd]
  rfl

theorem outValid_eq : t.outValid = !((t.toQueue c).offered c calls).isEmpty := by
  cases hcomb : c.combValid with
  | false => simp [outValid_of_not_comb hc h ha hcomb, Queue.offered, hcomb, toQueue]
  | true =>
    have hput : c.cthreadPut = false := by
      unfold Config.combValid at hcomb
      grind
    rw [outValid_of_comb h ha hcomb, offered_eq_of_comb hc h ha hd hcomb, hd.push hput]
    cases calls.put.stored t.readyPush <;> simp

theorem dataOut_eq (hv : t.outValid = true) :
    ((t.toQueue c).offered c calls).head? = some t.dataOut := by
  have hhead := dataOut_head h ha hd hv
  have hvalid := outValid_eq hc h ha hd
  have hprefix := Queue.offered_prefix c (t.toQueue c) calls
  rw [← readyPush_eq hc h ha hd] at hprefix
  obtain ⟨tail, htail⟩ := hprefix
  cases hoffered : (t.toQueue c).offered c calls with
  | nil => simp [hoffered, hv] at hvalid
  | cons data rest =>
    rw [hoffered] at htail
    have hcontent : (t.toQueue c).content = t.content c := rfl
    rw [hcontent] at htail
    rw [← htail] at hhead
    exact hhead

end

section
variable {t : Sim T} {calls : Calls T} (h : t.Inv c) (ha : t.AsyncDone c)
include h ha

omit h in
theorem pop_or_roomReady (hr : t.readyPush = true) : t.pop c = true ∨ t.roomReady c = true := by
  have := ha.readyPush
  grind

omit h in
theorem push_or_frontValid (hv : t.outValid = true) :
    t.push c = true ∨ t.frontValid c = true := by
  have := ha.outValid
  grind

/-- A push has room, counting the slot freed at the same edge. -/
theorem push_room (hd : t.Driven c calls) :
    t.elementNumD + (t.push c).toNat ≤ c.length + (t.pop c).toNat := by
  have hroom := h.room
  cases hm : c.cthreadPut with
  | true =>
    simp only [putPending, hm, Bool.true_and] at hroom
    omega
  | false =>
    cases hp : t.push c with
    | false => simp; omega
    | true =>
      have hready : t.readyPush = true := by
        by_contra hnot
        have := hd.push hm
        simp [hp, Bool.eq_false_iff.mpr hnot] at this
      rcases pop_or_roomReady ha hready with hpop | hfree
      · simp [hpop]
        omega
      · simp [roomReady, putPending, hm] at hfree
        simp
        omega

theorem pop_stored (hd : t.Driven c calls) :
    (t.pop c).toNat ≤ t.elementNumD + (t.push c).toNat := by
  have hstored := h.stored
  cases hm : c.cthreadGet with
  | true =>
    simp only [getPending, hm, Bool.true_and] at hstored
    omega
  | false =>
    cases hp : t.pop c with
    | false => simp
    | true =>
      have hvalid : t.outValid = true := by
        by_contra hnot
        have := hd.pop hm
        simp [hp, Bool.eq_false_iff.mpr hnot] at this
      rcases push_or_frontValid ha hvalid with hpush | hfront
      · simp [hpush]
      · simp [frontValid, getPending, hm] at hfront
        simp
        omega

theorem elementNum_eq (hd : t.Driven c calls) :
    t.elementNum = t.elementNumD + (t.push c).toNat - (t.pop c).toNat := by
  rw [ha.elementNum]
  exact Config.elemNum_eq (Nat.le_trans (Nat.le_add_right _ _) h.room) (push_room h ha hd)
    (pop_stored h ha hd)

end

private theorem replicate_isSome {o : Option T} {x : T} (h : ∀ data, o = some data → x = data) :
    List.replicate o.isSome.toNat x = o.toList := by
  cases o with
  | none => rfl
  | some data => simp [h data rfl]

end

variable [Inhabited T]

section
variable (c : Config)

theorem settle_methods (hloop : c.combValid = false ∨ c.combReady = false) (calls : Calls T)
    (s : Sim T) : methods c calls (settle c calls s) = settle c calls s := by
  obtain ⟨length, hpos, cp, cg, sv, sr, ib, op⟩ := c
  cases cp <;> cases cg <;> cases sv <;> cases sr <;>
    first
    | simp [settle, methods, putMethod, getMethod, asyncProc, push, pop]; done
    | exact absurd hloop (by simp [Config.combValid, Config.combReady])

theorem settle_putReq (hloop : c.combValid = false ∨ c.combReady = false)
    (hm : c.cthreadPut = false) (calls : Calls T) (s : Sim T) :
    (settle c calls s).putReq = calls.put.methodReq (settle c calls s).readyPush s.putReq := by
  have hfix := congrArg putReq (settle_methods c hloop calls s)
  have hheld : ∃ ready, (settle c calls s).putReq = calls.put.methodReq ready s.putReq := by
    refine ⟨(asyncProc c (methods c calls (asyncProc c s))).readyPush, ?_⟩
    simp [settle, methods, putMethod, getMethod, asyncProc, hm]
  obtain ⟨ready, hready⟩ := hheld
  simp only [methods, getMethod, putMethod, hm, Bool.false_eq_true, if_false] at hfix
  rw [← hfix, hready, PutCall.methodReq_idem]

theorem settle_getReq (hloop : c.combValid = false ∨ c.combReady = false)
    (hm : c.cthreadGet = false) (calls : Calls T) (s : Sim T) :
    (settle c calls s).getReq = calls.get.methodReq (settle c calls s).outValid s.getReq := by
  have hfix := congrArg getReq (settle_methods c hloop calls s)
  have hheld : ∃ valid, (settle c calls s).getReq = calls.get.methodReq valid s.getReq := by
    refine ⟨(asyncProc c (methods c calls (asyncProc c s))).outValid, ?_⟩
    simp [settle, methods, putMethod, getMethod, asyncProc, hm]
  obtain ⟨valid, hvalid⟩ := hheld
  simp only [methods, getMethod, putMethod, hm, Bool.false_eq_true, if_false] at hfix
  rw [← hfix, hvalid, GetCall.methodReq_idem]

theorem settle_dataIn (calls : Calls T) (s : Sim T) :
    (settle c calls s).dataIn =
      if c.cthreadPut then s.dataIn else calls.put.methodData s.dataIn := by
  simp [settle, methods, putMethod, getMethod, asyncProc]
  split <;> simp [*]

theorem settle_putPending (calls : Calls T) (s : Sim T) :
    (settle c calls s).putPending c = s.putPending c := by
  cases hm : c.cthreadPut <;>
    simp [putPending, push, settle, methods, putMethod, getMethod, asyncProc, hm]

theorem settle_getPending (calls : Calls T) (s : Sim T) :
    (settle c calls s).getPending c = s.getPending c := by
  cases hm : c.cthreadGet <;>
    simp [getPending, pop, settle, methods, putMethod, getMethod, asyncProc, hm]

end

variable {c : Config}

theorem settle_content (calls : Calls T) (s : Sim T) :
    (settle c calls s).content c = s.content c := by
  have hdata : List.replicate (s.putPending c).toNat (settle c calls s).dataIn =
      List.replicate (s.putPending c).toNat s.dataIn := by
    rw [settle_dataIn]
    cases hm : c.cthreadPut <;> simp [putPending, hm]
  rw [content, settle_putPending, settle_getPending, hdata]
  rfl

theorem settle_inv {s : Sim T} (h : s.Inv c) (calls : Calls T) : (settle c calls s).Inv c where
  popIndx_lt := h.popIndx_lt
  pushIndx_eq := h.pushIndx_eq
  room := by rw [settle_putPending]; exact h.room
  stored := by rw [settle_getPending]; exact h.stored
  putWaiting data hdata := by
    obtain ⟨hthread, hin⟩ := h.putWaiting data hdata
    refine ⟨hthread, ?_⟩
    rw [settle_dataIn, if_pos hthread, hin]
  getWaiting := h.getWaiting

theorem settle_asyncDone (calls : Calls T) (s : Sim T) : (settle c calls s).AsyncDone c :=
  ⟨rfl, rfl, rfl, rfl⟩

theorem settle_driven (hloop : c.combValid = false ∨ c.combReady = false) {s : Sim T}
    (h : s.Inv c) {calls : Calls T} (hok : s.allowed c calls) :
    (settle c calls s).Driven c (calls.resume s.putWaiting s.getWaiting) where
  push hm := by
    have hd := drives_put hok hm
    rw [h.resume_put hm, ← PutCall.methodReq_of_drives hd, ← settle_putReq c hloop hm]
    simp [Sim.push, hm]
  dataIn hm data hdata := by
    have hd := drives_put hok hm
    rw [h.resume_put hm] at hdata
    rw [settle_dataIn, hm]
    exact PutCall.methodData_of_stored hd hdata _
  pop hm := by
    have hd := drives_get hok hm
    rw [h.resume_get hm, ← GetCall.methodReq_of_drives hd, ← settle_getReq c hloop hm]
    simp [Sim.pop, hm]
  putWaits hm := by
    rw [h.resume_put hm, PutCall.waits_of_drives (drives_put hok hm)]
  getWaits hm := by
    rw [h.resume_get hm, GetCall.waits_of_drives (drives_get hok hm)]

theorem edge_putPending (calls : Calls T) (t : Sim T) :
    (edge c calls t).putPending c =
      (c.cthreadPut && ((calls.put.resume t.putWaiting).stored t.readyPush).isSome) := by
  cases hm : c.cthreadPut <;>
    simp [putPending, push, edge, getThread, putThread, syncProc, hm,
      PutCall.threadReq_bne]

theorem edge_getPending (calls : Calls T) (t : Sim T) :
    (edge c calls t).getPending c =
      (c.cthreadGet && (calls.get.resume t.getWaiting).taken t.outValid) := by
  cases hm : c.cthreadGet <;>
    simp [getPending, pop, edge, getThread, putThread, syncProc, hm,
      GetCall.threadReq_bne]

theorem edge_dataIn {t : Sim T} (h : t.Inv c) (calls : Calls T) (hm : c.cthreadPut = true)
    {data : T} (hdata : (calls.put.resume t.putWaiting).stored t.readyPush = some data ∨
      (calls.put.resume t.putWaiting).waits t.readyPush = some data) :
    (edge c calls t).dataIn = data := by
  have hedge : (edge c calls t).dataIn = calls.put.threadData t.putWaiting t.dataIn := by
    simp [edge, getThread, putThread, hm]
  rw [hedge]
  cases hw : t.putWaiting with
  | some old =>
    have hold : t.dataIn = old := (h.putWaiting old hw).2
    rw [hw] at hdata
    simp only [PutCall.resume, PutCall.stored, PutCall.waits] at hdata
    simp only [PutCall.threadData]
    grind
  | none =>
    rw [hw] at hdata
    cases hcall : calls.put <;>
      simp [hcall, PutCall.resume, PutCall.stored, PutCall.waits, PutCall.threadData] at hdata ⊢ <;>
      grind

theorem edge_popIndx {t : Sim T} (h : t.Inv c) (calls : Calls T) :
    (edge c calls t).popIndx = (t.popIndx + (t.pop c).toNat) % c.length := by
  have hedge : (edge c calls t).popIndx =
      if t.pop c then c.nextIndx t.popIndx else t.popIndx := rfl
  rw [hedge]
  cases t.pop c
  · simp [Nat.mod_eq_of_lt h.popIndx_lt]
  · simp [Config.nextIndx_eq h.popIndx_lt]

theorem edge_pushIndx {t : Sim T} (h : t.Inv c) (calls : Calls T) :
    (edge c calls t).pushIndx = (t.popIndx + t.elementNumD + (t.push c).toNat) % c.length := by
  have hedge : (edge c calls t).pushIndx =
      if t.push c then c.nextIndx t.pushIndx else t.pushIndx := rfl
  have hlt : t.pushIndx < c.length := by
    rw [h.pushIndx_eq]
    exact Nat.mod_lt _ c.length_pos
  rw [hedge, Config.nextIndx_eq hlt, h.pushIndx_eq]
  cases t.push c <;> simp

theorem edge_contents {t : Sim T} {calls : Calls T} (h : t.Inv c) (ha : t.AsyncDone c)
    {resumed : Calls T} (hd : t.Driven c resumed) :
    Ring.contents c.length (edge c calls t).buffer (edge c calls t).popIndx
        (edge c calls t).elementNumD =
      (Ring.contents c.length t.buffer t.popIndx t.elementNumD ++
        List.replicate (t.push c).toNat t.dataIn).drop (t.pop c).toNat := by
  have hbuffer : (edge c calls t).buffer =
      if (t.push c).toNat = 1 then
        Function.update t.buffer ((t.popIndx + t.elementNumD) % c.length) t.dataIn
      else t.buffer := by
    rw [← h.pushIndx_eq]
    cases hp : t.push c <;> simp [edge, getThread, putThread, syncProc, hp]
  have hnum : (edge c calls t).elementNumD = t.elementNum := rfl
  rw [hbuffer, edge_popIndx h, hnum, elementNum_eq h ha hd]
  exact Ring.contents_pushPop _ _ (Bool.toNat_le _) (push_room h ha hd) (pop_stored h ha hd)

theorem edge_inv {t : Sim T} {calls : Calls T} (h : t.Inv c) (ha : t.AsyncDone c)
    (hd : t.Driven c (calls.resume t.putWaiting t.getWaiting)) : (edge c calls t).Inv c := by
  have hnum : (edge c calls t).elementNumD = t.elementNumD + (t.push c).toNat - (t.pop c).toNat :=
    elementNum_eq h ha hd
  have hroom := push_room h ha hd
  have hstored := pop_stored h ha hd
  constructor
  · rw [edge_popIndx h]
    exact Nat.mod_lt _ c.length_pos
  · rw [edge_pushIndx h, edge_popIndx h, hnum, Nat.mod_add_mod]
    congr 1
    omega
  · rw [hnum, edge_putPending]
    have hr := h.room
    cases hm : c.cthreadPut with
    | false => simp; omega
    | true =>
      simp only [putPending, hm, Bool.true_and] at hr
      cases hs : ((calls.put.resume t.putWaiting).stored t.readyPush).isSome with
      | false => simp; omega
      | true =>
        have hready : t.readyPush = true := by
          by_contra hnot
          simp [Bool.eq_false_iff.mpr hnot] at hs
        rcases pop_or_roomReady ha hready with hpop | hfree
        · simp [hpop] at hstored ⊢
          omega
        · cases hp : t.push c <;> simp [roomReady, putPending, hm, hp] at hfree hr ⊢ <;> omega
  · rw [hnum, edge_getPending]
    have hs := h.stored
    cases hm : c.cthreadGet with
    | false => simp
    | true =>
      simp only [getPending, hm, Bool.true_and] at hs
      cases ht : (calls.get.resume t.getWaiting).taken t.outValid with
      | false => simp
      | true =>
        have hvalid : t.outValid = true := by
          by_contra hnot
          simp [Bool.eq_false_iff.mpr hnot] at ht
        rcases push_or_frontValid ha hvalid with hpush | hfront
        · simp [hpush]
          omega
        · cases hp : t.pop c <;> simp [frontValid, getPending, hm, hp] at hfront hs ⊢ <;> omega
  · intro data hw
    cases hm : c.cthreadPut with
    | false =>
      have hold : t.putWaiting = some data := by
        simpa [edge, getThread, putThread, syncProc, hm] using hw
      simp [(h.putWaiting data hold).1] at hm
    | true =>
      have hnew : (calls.put.resume t.putWaiting).waits t.readyPush = some data := by
        simpa [edge, getThread, putThread, hm] using hw
      exact ⟨rfl, edge_dataIn h calls hm (.inr hnew)⟩
  · intro hw
    cases hm : c.cthreadGet with
    | true => rfl
    | false =>
      have hold : t.getWaiting = true := by
        simpa [edge, getThread, putThread, syncProc, hm] using hw
      simp [h.getWaiting hold] at hm

theorem edge_content {t : Sim T} {calls : Calls T} (h : t.Inv c)
    (ha : t.AsyncDone c) (hd : t.Driven c (calls.resume t.putWaiting t.getWaiting)) :
    (edge c calls t).content c =
      (t.content c ++ ((calls.put.resume t.putWaiting).stored t.readyPush).toList).drop
        ((calls.get.resume t.getWaiting).taken t.outValid).toNat := by
  have hstored := h.stored
  have hpopped := pop_stored h ha hd
  rw [content, edge_contents h ha hd, edge_putPending, edge_getPending, content, putPending,
    getPending]
  -- A METHOD's push or pop is done at this edge, a thread's is left pending
  cases hput : c.cthreadPut with
  | true =>
    have hedge := replicate_isSome fun data hdata => edge_dataIn h calls hput (.inl hdata)
    simp only [Bool.true_and, hedge]
    cases hget : c.cthreadGet with
    | true => rfl
    | false =>
      have hpop := hd.pop hget
      simp only [Calls.resume] at hpop
      rw [hpop] at hpopped ⊢
      simp only [Bool.false_and, Bool.toNat_false, List.drop_zero]
      exact (List.drop_append_of_le_length (by simpa using hpopped)).symm
  | false =>
    have hpush := hd.push hput
    have hin := replicate_isSome (hd.dataIn hput)
    simp only [Calls.resume] at hpush hin
    rw [hpush, hin]
    cases hget : c.cthreadGet with
    | true =>
      simp only [getPending, hget, Bool.true_and] at hstored
      simp only [Bool.false_and, Bool.true_and, Bool.toNat_false, List.replicate_zero,
        List.append_nil]
      rw [List.drop_append_of_le_length (by simpa using hstored)]
    | false =>
      have hpop := hd.pop hget
      simp only [Calls.resume] at hpop
      rw [hpop]
      simp

theorem edge_putWaiting {t : Sim T} {calls : Calls T} (h : t.Inv c)
    (hd : t.Driven c (calls.resume t.putWaiting t.getWaiting)) :
    (edge c calls t).putWaiting =
      (calls.resume t.putWaiting t.getWaiting).put.waits t.readyPush := by
  have hedge : (edge c calls t).putWaiting =
      if c.cthreadPut then (calls.put.resume t.putWaiting).waits t.readyPush
      else t.putWaiting := rfl
  rw [hedge]
  cases hm : c.cthreadPut with
  | true => rfl
  | false =>
    rw [hd.putWaits hm]
    cases hw : t.putWaiting with
    | none => rfl
    | some data => simp [(h.putWaiting data hw).1] at hm

theorem edge_getWaiting {t : Sim T} {calls : Calls T} (h : t.Inv c)
    (hd : t.Driven c (calls.resume t.putWaiting t.getWaiting)) :
    (edge c calls t).getWaiting =
      (calls.resume t.putWaiting t.getWaiting).get.waits t.outValid := by
  have hedge : (edge c calls t).getWaiting =
      if c.cthreadGet then (calls.get.resume t.getWaiting).waits t.outValid
      else t.getWaiting := rfl
  rw [hedge]
  cases hm : c.cthreadGet with
  | true => rfl
  | false =>
    rw [hd.getWaits hm]
    cases hw : t.getWaiting with
    | false => rfl
    | true => simp [h.getWaiting hw] at hm

/-- One cycle of the signals is one cycle of the queue. -/
theorem step_refines (hc : c.accepted) {s : Sim T} (h : s.Inv c) {calls : Calls T}
    (hok : s.allowed c calls) :
    ((machine T c).step s calls).1.Inv c ∧
    ((machine T c).step s calls).1.toQueue c = ((s.toQueue c).step c calls).1 ∧
    ((machine T c).step s calls).2 = ((s.toQueue c).step c calls).2 := by
  have ht := settle_inv h calls
  have ha : (settle c calls s).AsyncDone c := settle_asyncDone calls s
  have hd := settle_driven (Config.not_comb_both hc) h hok
  have hq : (settle c calls s).toQueue c = s.toQueue c := by
    rw [toQueue, toQueue, settle_content]
    rfl
  have hready := readyPush_eq hc ht ha hd
  have hvalid := outValid_eq hc ht ha hd
  have hdata := dataOut_eq hc ht ha hd
  rw [hq] at hready hvalid hdata
  have hcontent := edge_content ht ha hd
  rw [settle_content] at hcontent
  have hcycle := Queue.cycle_eq c (toQueue c (edge c calls (settle c calls s)))
    hready hvalid hdata hcontent (edge_putWaiting ht hd) (edge_getWaiting ht hd)
  exact ⟨edge_inv ht ha hd, congrArg Prod.fst hcycle.symm, congrArg Prod.snd hcycle.symm⟩

/-- A METHOD's requests stand as its calls of the cycle reported. -/
theorem step_putReq (hc : c.accepted) {s : Sim T} (h : s.Inv c) {calls : Calls T}
    (hok : s.allowed c calls) (hm : c.cthreadPut = false) :
    ((machine T c).step s calls).1.putReq = ((machine T c).step s calls).2.put.isSome := by
  have hpush := (settle_driven (Config.not_comb_both hc) h hok).push hm
  simp only [push, hm] at hpush
  simp only [machine, edge, getThread, putThread, hm]
  exact hpush

theorem step_getReq (hc : c.accepted) {s : Sim T} (h : s.Inv c) {calls : Calls T}
    (hok : s.allowed c calls) (hm : c.cthreadGet = false) :
    ((machine T c).step s calls).1.getReq = ((machine T c).step s calls).2.get.isSome := by
  have hpop := (settle_driven (Config.not_comb_both hc) h hok).pop hm
  have htaken : ((machine T c).step s calls).2.get.isSome =
      (calls.resume s.putWaiting s.getWaiting).get.taken (settle c calls s).outValid := by
    have hget : ((machine T c).step s calls).2.get =
        if (calls.resume s.putWaiting s.getWaiting).get.taken (settle c calls s).outValid
        then some (settle c calls s).dataOut else none := rfl
    rw [hget]
    cases (calls.resume s.putWaiting s.getWaiting).get.taken (settle c calls s).outValid <;> rfl
  simp only [pop, hm] at hpop
  rw [htaken, ← hpop]
  simp [machine, edge, getThread, putThread, syncProc, hm]

/-- A clock edge takes from the front of the queue what the gets of the cycle return. -/
theorem edge_law {t : Sim T} {calls : Calls T} (h : t.Inv c) (ha : t.AsyncDone c)
    (hd : t.Driven c (calls.resume t.putWaiting t.getWaiting)) :
    t.content c ++ (t.returns calls).put.toList =
      (t.returns calls).get.toList ++ (t.edge c calls).content c := by
  have hhead := dataOut_head h ha hd
  have hcontent : (t.edge c calls).content c =
      (t.content c ++ ((calls.resume t.putWaiting t.getWaiting).put.stored
        t.readyPush).toList).drop
        ((calls.resume t.putWaiting t.getWaiting).get.taken t.outValid).toNat :=
    edge_content h ha hd
  rw [hcontent]
  unfold returns
  by_cases htaken : (calls.resume t.putWaiting t.getWaiting).get.taken t.outValid = true
  · have hv : t.outValid = true := by
      by_contra hnot
      simp [Bool.eq_false_iff.mpr hnot] at htaken
    obtain ⟨rest, hrest⟩ := List.head?_eq_some_iff.mp (hhead hv)
    dsimp only
    rw [if_pos htaken, htaken, hrest]
    rfl
  · dsimp only
    rw [if_neg htaken, Bool.eq_false_iff.mpr htaken]
    rfl

theorem step_law (hloop : c.combValid = false ∨ c.combReady = false) {s : Sim T} (h : s.Inv c)
    {calls : Calls T} (hok : s.allowed c calls) :
    s.content c ++ (((settle c calls s).returns calls).put).toList =
      ((settle c calls s).returns calls).get.toList ++
        ((settle c calls s).edge c calls).content c := by
  rw [← edge_law (settle_inv h calls) (settle_asyncDone calls s) (settle_driven hloop h hok),
    settle_content]

/-- The signals hold a queue when no combinational loop joins the sides, also where a
registered `ready()` lags behind the get of a thread. -/
def queueLaw (T : Type) [Inhabited T] (hloop : c.combValid = false ∨ c.combReady = false) :
    QueueLaw (machine T c) ports (fun s calls => s.allowed c calls) where
  Inv s := Inv c s
  content s := content c s
  inv _ calls h hok :=
    edge_inv (settle_inv h calls) (settle_asyncDone calls _) (settle_driven hloop h hok)
  law _ _ h hok := step_law hloop h hok

/-- The simulation build refines the bounded queue. -/
def refines (hc : c.accepted) :
    Simulation (machine T c) (Queue.machine T c) (fun s calls => s.allowed c calls) where
  Rel s q := s.Inv c ∧ q = s.toQueue c
  step s q calls h hok := by
    obtain ⟨hinv, rfl⟩ := h
    obtain ⟨hnext, hqueue, -⟩ := step_refines hc hinv hok
    exact ⟨hnext, hqueue.symm⟩
  output s q calls h hok := by
    obtain ⟨hinv, rfl⟩ := h
    exact (step_refines hc hinv hok).2.2

theorem reset_inv (s : Sim T) : (s.reset c).Inv c where
  popIndx_lt := c.length_pos
  pushIndx_eq := (Nat.zero_mod _).symm
  room := by
    cases hm : c.cthreadPut <;> simp [reset, putPending, push, hm]
  stored := by
    cases hm : c.cthreadGet <;> simp [reset, getPending, pop, hm]
  putWaiting data hdata := by cases hdata
  getWaiting hw := by cases hw

theorem reset_toQueue (s : Sim T) : (s.reset c).toQueue c = Queue.empty := by
  have hpush : (s.reset c).putPending c = false := by
    cases hm : c.cthreadPut <;> simp [reset, putPending, push, hm]
  rw [toQueue, content, hpush]
  simp [reset, Queue.empty]

theorem run_bounded (hc : c.accepted) (s : Sim T) {calls : List (Calls T)}
    (hok : (machine T c).EveryStep (fun s calls => s.allowed c calls) (s.reset c) calls) :
    let returned := (machine T c).outputs (s.reset c) calls
    let final := (machine T c).run (s.reset c) calls
    returned.flatMap ports.delivered <+: returned.flatMap ports.accepted ∧
    (returned.flatMap ports.accepted).length ≤
      (returned.flatMap ports.delivered).length + c.length ∧
    final.elementNumD ≤ c.length ∧
    ((final.pushIndx : Int) - final.popIndx) % c.length = (final.elementNumD : Int) % c.length := by
  intro returned final
  have hrel : (refines hc).Rel (s.reset c) (Queue.empty : Queue T) :=
    ⟨reset_inv s, (reset_toQueue s).symm⟩
  have hout : returned = (Queue.machine T c).outputs Queue.empty calls :=
    (refines hc).outputs_eq hrel hok
  have hsteps : (Queue.machine T c).EveryStep (fun _ _ => True) Queue.empty calls :=
    (refines hc).everyStep (fun _ _ _ _ _ => trivial) hrel hok
  have hempty : (Queue.empty : Queue T).content.length ≤ c.length := Nat.zero_le _
  obtain ⟨hinv, hqueue⟩ := (refines hc).run_rel hrel hok
  have hlen := (Queue.queueLaw c T hc).accepted_length hempty rfl hsteps
  have hbound := (Queue.queueLaw c T hc).run_inv hempty hsteps
  rw [← hout] at hlen
  refine ⟨?_, ?_, ?_, ?_⟩
  · rw [hout]
    exact (Queue.queueLaw c T hc).delivered_leads hempty rfl hsteps
  · exact hlen ▸ Nat.add_le_add_left hbound _
  · exact Nat.le_trans (Nat.le_add_right _ _) hinv.room
  · rw [hinv.pushIndx_eq, Int.natCast_emod, Int.emod_sub_emod, Int.natCast_add,
      Int.add_comm, Int.add_sub_cancel]

/-- A METHOD puts through a bypass to a thread, the FIFO has one element. -/
theorem run_bounded_bypass :
    let c : Config :=
      { length := 1, length_pos := by decide, cthreadPut := false, cthreadGet := true
        syncValid := false, syncReady := false }
    let calls : List (Calls Nat) :=
      [⟨.put 3, .bGet⟩, ⟨.put 4, .idle⟩, ⟨.putMask 5 true, .get⟩, ⟨.clearPut, .getEnable true⟩]
    let returned := (machine Nat c).outputs (reset c default) calls
    returned.flatMap ports.accepted = [3, 4] ∧
      returned.flatMap ports.delivered <+: returned.flatMap ports.accepted := by
  intro c calls returned
  have hok : (machine Nat c).EveryStep (fun s calls => s.allowed c calls) (reset c default) calls :=
    ⟨rfl, rfl, rfl, rfl, trivial⟩
  exact ⟨by decide, (run_bounded rfl default hok).1⟩

/-- A METHOD put side that makes no call leaves its request up, and the element
put before is stored again in every cycle. -/
theorem idle_method_repeats :
    let c : Config :=
      { length := 2, length_pos := by decide, cthreadPut := false, cthreadGet := true
        syncValid := false, syncReady := false }
    let calls : List (Calls Nat) := [⟨.put 5, .get⟩, ⟨.idle, .get⟩]
    let returned := (machine Nat c).outputs (reset c default) calls
    c.accepted = true ∧ returned.flatMap ports.accepted = [5] ∧
      returned.flatMap ports.delivered = [5, 5] ∧
      ¬ returned.flatMap ports.delivered <+: returned.flatMap ports.accepted := by
  decide

end Sim
end SystemcCompiler.Fifo
