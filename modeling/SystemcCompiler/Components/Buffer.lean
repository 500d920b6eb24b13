import SystemcCompiler.Components.FifoSynth

/-! `sct_buffer_impl`, the simulation of a buffer between two threads, beside the
synthesized FIFO it stands for. -/
namespace SystemcCompiler.Fifo
open Channel

variable {T : Type}

/-- The calls of one clock edge and the order the two processes run in. -/
structure BufferCalls (T : Type) extends Calls T where
  peek : Bool
  putFirst : Bool

structure BufferReturns (T : Type) where
  ready : Bool
  request : Bool
  elemNum : Nat
  put : Bool
  get : Bool
  /-- The data of a get that returned, with or without a request. -/
  data : Option T
  peek : Option T
  deriving DecidableEq

/-- A get call that returns data, given `request()`. -/
def GetCall.reads (call : GetCall) (request : Bool) : Bool :=
  match call with
  | .get | .getEnable _ => true
  | .bGet => request
  | .idle | .clearGet => false

/-- The FIFO a buffer of this length is synthesized to. -/
def bufferConfig (length : Nat) (hpos : 0 < length) (initBuffer oneProc : Bool) : Config where
  length := length
  length_pos := hpos
  cthreadPut := true
  cthreadGet := true
  syncValid := false
  syncReady := false
  initBuffer := initBuffer
  oneProc := oneProc

theorem bufferConfig_accepted (length : Nat) (hpos : 0 < length) (initBuffer oneProc : Bool) :
    (bufferConfig length hpos initBuffer oneProc).accepted := by
  simp [bufferConfig, Config.accepted]

/-- The fields of the channel, all 16 bit numbers but the requests and the data. -/
structure Buffer (T : Type) where
  popIndx : Nat
  pushIndx : Nat
  elementNum : Nat
  putReq : Bool
  getReq : Bool
  buffer : Nat → T
  putWaiting : Option T
  getWaiting : Bool
  deriving Inhabited

namespace Buffer
variable (length : Nat)

def ready (b : Buffer T) : Bool := b.elementNum != length
def request (b : Buffer T) : Bool := b.elementNum != 0

/-- The put process: its data is in the buffer at once. -/
def putProc (call : PutCall T) (b : Buffer T) : Buffer T :=
  let resumed := call.resume b.putWaiting
  { b with
    putReq :=
      match resumed.stored (b.ready length), resumed with
      | some _, _ => true
      | none, .clearPut => false
      | none, _ => b.putReq
    buffer :=
      match resumed.stored (b.ready length) with
      | some data => Function.update b.buffer b.pushIndx data
      | none => b.buffer
    putWaiting := resumed.waits (b.ready length) }

def getProc (call : GetCall) (b : Buffer T) : Buffer T :=
  let resumed := call.resume b.getWaiting
  { b with
    getReq :=
      match resumed.taken b.request, resumed with
      | true, _ => true
      | false, .clearGet => false
      | false, _ => b.getReq
    getWaiting := resumed.waits b.request }

def nextIndx (i : Nat) : Nat := if i = length - 1 then 0 else (i + 1) % 2 ^ 16

/-- End of the delta cycle. -/
def update (b : Buffer T) : Buffer T :=
  let popped := if b.getReq then (b.elementNum + 2 ^ 16 - 1) % 2 ^ 16 else b.elementNum
  { b with
    popIndx := if b.getReq then nextIndx length b.popIndx else b.popIndx
    pushIndx := if b.putReq then nextIndx length b.pushIndx else b.pushIndx
    elementNum := if b.putReq then (popped + 1) % 2 ^ 16 else popped
    getReq := false
    putReq := false }

/-- What the get process runs on. -/
def seen (calls : BufferCalls T) (b : Buffer T) : Buffer T :=
  if calls.putFirst then b.putProc length calls.put else b

def edge (calls : BufferCalls T) (b : Buffer T) : Buffer T :=
  if calls.putFirst then update length ((b.putProc length calls.put).getProc calls.get)
  else update length ((b.getProc calls.get).putProc length calls.put)

def returns (calls : BufferCalls T) (b : Buffer T) : BufferReturns T :=
  let seen := b.seen length calls
  let resumed := calls.get.resume b.getWaiting
  { ready := b.ready length
    request := b.request
    elemNum := b.elementNum
    put := ((calls.put.resume b.putWaiting).stored (b.ready length)).isSome
    get := resumed.taken b.request
    data := if resumed.reads b.request then some (seen.buffer seen.popIndx) else none
    peek := if calls.peek then some (seen.buffer seen.popIndx) else none }

/-- After the reset calls of both sides. -/
def initial [Inhabited T] : Buffer T where
  popIndx := 0
  pushIndx := 0
  elementNum := 0
  putReq := false
  getReq := false
  buffer := fun _ => default
  putWaiting := none
  getWaiting := false

def machine (T : Type) (length : Nat) : Mealy (BufferCalls T) (BufferReturns T) where
  State := Buffer T
  step b calls := (b.edge length calls, b.returns length calls)

/-- The processes do not see each other but for the data. -/
theorem edge_eq (calls : BufferCalls T) (b : Buffer T) :
    b.edge length calls = update length ((b.putProc length calls.put).getProc calls.get) := by
  unfold edge
  split <;> rfl

theorem nextIndx_eq {i : Nat} (hlen : length ≤ 65535) (hi : i < length) :
    nextIndx length i = (i + 1) % length := by
  rw [← Ring.next_eq hi, nextIndx]
  split
  · rfl
  · exact Nat.mod_eq_of_lt (by omega)

end Buffer

namespace Synth
variable [Inhabited T]

/-- The synthesized FIFO under the calls of a buffer. -/
def bufferReturns (calls : BufferCalls T) (t : Synth T) : BufferReturns T :=
  let resumed := calls.get.resume t.getWaiting
  { ready := t.readyPush
    request := t.outValid
    elemNum := t.elementNumD
    put := ((calls.put.resume t.putWaiting).stored t.readyPush).isSome
    get := resumed.taken t.outValid
    data := if resumed.reads t.outValid then some t.dataOut else none
    peek := if calls.peek then some t.dataOut else none }

def bufferMachine (T : Type) [Inhabited T] (c : Config) :
    Mealy (BufferCalls T) (BufferReturns T) where
  State := Synth T
  step s calls :=
    let t := s.settle c calls.toCalls
    (t.edge c calls.toCalls, t.bufferReturns calls)

end Synth

/-- The cycles the buffer and its FIFO agree in: no put blocks, and data is not
read from an empty buffer behind a put of the same edge. -/
def Buffer.agreed (length : Nat) (b : Buffer T) (calls : BufferCalls T) : Bool :=
  (match calls.put with
    | .bPut _ => b.ready length
    | _ => true) &&
  !(calls.putFirst && !b.request && (calls.put.stored true).isSome &&
    ((calls.get.resume b.getWaiting).reads false || calls.peek))

/-- The same registers on both sides. -/
structure SameRegisters (c : Config) (b : Buffer T) (u : Synth T) : Prop where
  inv : u.Inv c
  popIndx : b.popIndx = u.popIndx
  pushIndx : b.pushIndx = u.pushIndx
  elementNum : b.elementNum = u.elementNumD
  buffer : b.buffer = u.buffer
  putReq : b.putReq = false
  getReq : b.getReq = false
  putWaiting : b.putWaiting = none
  getWaiting : b.getWaiting = u.getWaiting

section
variable [Inhabited T] {length : Nat} {hpos : 0 < length} {initBuffer oneProc : Bool}
  {b : Buffer T} {u : Synth T} {calls : BufferCalls T}

/-- What the threads see of the settled FIFO. -/
theorem bufferConfig_settle (u : Synth T) (calls : Calls T) :
    let t := u.settle (bufferConfig length hpos initBuffer oneProc) calls
    t.readyPush = (u.elementNumD != length) ∧ t.outValid = (u.elementNumD != 0) ∧
      t.dataOut = u.buffer u.popIndx :=
  ⟨rfl, rfl, rfl⟩

omit [Inhabited T] in
theorem SameRegisters.allowed
    (h : SameRegisters (bufferConfig length hpos initBuffer oneProc) b u)
    (hok : b.agreed length calls) :
    u.allowed (bufferConfig length hpos initBuffer oneProc) calls.toCalls := by
  refine Synth.allowed_iff.mpr ⟨.inl rfl, .inl rfl, ?_⟩
  have hput := (Bool.and_eq_true_iff.mp hok).1
  unfold Synth.putUnblocked
  cases hcall : calls.put with
  | bPut data =>
    rw [hcall] at hput
    have hlen := Synth.content_length (c := bufferConfig length hpos initBuffer oneProc) u
    simp only [Queue.ready, Synth.toQueue, hlen, Bool.or_eq_true]
    left
    rw [← h.elementNum]
    exact hput
  | _ => rfl

omit [Inhabited T] in
/-- The data a get or a peek sees is the registered one. -/
theorem SameRegisters.seen_data
    (h : SameRegisters (bufferConfig length hpos initBuffer oneProc) b u)
    (hok : b.agreed length calls)
    (hreads : (calls.get.resume b.getWaiting).reads b.request = true ∨ calls.peek = true) :
    (b.seen length calls).buffer (b.seen length calls).popIndx = u.buffer u.popIndx := by
  have hbuf : (b.seen length calls).popIndx = u.popIndx := by
    unfold Buffer.seen
    split <;> exact h.popIndx
  rw [hbuf]
  unfold Buffer.seen
  cases hfirst : calls.putFirst with
  | false => simp [h.buffer]
  | true =>
    have hdata := (Bool.and_eq_true_iff.mp hok).2
    simp only [if_true, Buffer.putProc, h.putWaiting, PutCall.resume]
    cases hs : calls.put.stored (b.ready length) with
    | none => simp [h.buffer]
    | some data =>
      have hready : b.ready length = true := by
        by_contra hnot
        simp [Bool.eq_false_iff.mpr hnot] at hs
      rw [hready] at hs
      have hreq : b.request = true := by
        by_contra hnot
        rw [Bool.eq_false_iff.mpr hnot] at hreads hdata
        rcases hreads with hr | hp <;> simp [*] at hdata
      have hne : u.popIndx ≠ u.pushIndx := by
        have hlt := h.inv.popIndx_lt
        have hidx := h.inv.pushIndx_eq
        have hroom := h.inv.room
        simp only [Buffer.ready, Buffer.request, bne_iff_ne, h.elementNum] at hready hreq
        simp only [bufferConfig] at hlt hidx hroom
        rw [hidx]
        have hoff := @Ring.offset_ne length u.popIndx 0 u.elementNumD (by omega) (by omega)
        rwa [Nat.add_zero, Nat.mod_eq_of_lt hlt] at hoff
      simp only [h.pushIndx, h.buffer]
      exact Function.update_of_ne hne _ _

theorem SameRegisters.returns
    (h : SameRegisters (bufferConfig length hpos initBuffer oneProc) b u)
    (hok : b.agreed length calls) :
    b.returns length calls =
      (u.settle (bufferConfig length hpos initBuffer oneProc) calls.toCalls).bufferReturns
        calls := by
  have hseen := h.seen_data hok
  obtain ⟨hready, hvalid, hdata⟩ :=
    @bufferConfig_settle T _ length hpos initBuffer oneProc u calls.toCalls
  have hbready : b.ready length = (u.elementNumD != length) := by rw [← h.elementNum]; rfl
  have hbreq : b.request = (u.elementNumD != 0) := by rw [← h.elementNum]; rfl
  have hput : b.putWaiting = u.putWaiting := h.putWaiting.trans h.inv.putWaiting.symm
  have hget : (u.settle (bufferConfig length hpos initBuffer oneProc) calls.toCalls).getWaiting =
      b.getWaiting := h.getWaiting.symm
  have hwait : (u.settle (bufferConfig length hpos initBuffer oneProc) calls.toCalls).putWaiting =
      b.putWaiting := hput.symm
  simp only [Buffer.returns, Synth.bufferReturns, hready, hvalid, hdata, hget, hwait, ← hbready,
    ← hbreq]
  congr 1
  · exact h.elementNum
  · split
    · rw [hseen (.inl ‹_›)]
    · rfl
  · split
    · rw [hseen (.inr ‹_›)]
    · rfl

omit [Inhabited T] in
/-- An edge by what the calls report. -/
theorem Buffer.edge_reported (hp : b.putReq = false) (hg : b.getReq = false) :
    let stored := (calls.put.resume b.putWaiting).stored (b.ready length)
    let taken := (calls.get.resume b.getWaiting).taken b.request
    let popped := if taken then (b.elementNum + 2 ^ 16 - 1) % 2 ^ 16 else b.elementNum
    b.edge length calls =
      { popIndx := if taken then nextIndx length b.popIndx else b.popIndx
        pushIndx := if stored.isSome then nextIndx length b.pushIndx else b.pushIndx
        elementNum := if stored.isSome then (popped + 1) % 2 ^ 16 else popped
        putReq := false
        getReq := false
        buffer :=
          match stored with
          | some data => Function.update b.buffer b.pushIndx data
          | none => b.buffer
        putWaiting := (calls.put.resume b.putWaiting).waits (b.ready length)
        getWaiting := (calls.get.resume b.getWaiting).waits b.request } := by
  intro stored taken popped
  have hput : (b.putProc length calls.put).putReq = stored.isSome := by
    simp only [Buffer.putProc, stored]
    cases hs : (calls.put.resume b.putWaiting).stored (b.ready length) with
    | some data => simp
    | none => cases calls.put.resume b.putWaiting <;> simp [hp]
  have hget : ((b.putProc length calls.put).getProc calls.get).getReq = taken := by
    have hpg : (b.putProc length calls.put).getReq = false := hg
    have hreq : (b.putProc length calls.put).request = b.request := rfl
    have hw : (b.putProc length calls.put).getWaiting = b.getWaiting := rfl
    simp only [Buffer.getProc, taken, hpg, hreq, hw]
    cases ht : (calls.get.resume b.getWaiting).taken b.request with
    | true => simp
    | false => cases calls.get.resume b.getWaiting <;> simp
  have hput' : ((b.putProc length calls.put).getProc calls.get).putReq = stored.isSome := hput
  rw [Buffer.edge_eq, Buffer.update, hget, hput']
  rfl

omit [Inhabited T] in
theorem Buffer.nextIndx_ite {i : Nat} (hlen : length ≤ 65535) (hi : i < length) (move : Bool) :
    (if move then Buffer.nextIndx length i else i) = (i + move.toNat) % length := by
  rw [Buffer.nextIndx_eq length hlen hi]
  cases move <;> simp [Nat.mod_eq_of_lt hi]

omit [Inhabited T] in
/-- The wrapping count after an edge. -/
theorem Buffer.count_eq {modulus num : Nat} {stored taken : Bool} (hlen : num < modulus)
    (hput : stored = true → num + 1 < modulus) (hget : taken = true → 1 ≤ num) :
    (let popped := if taken then (num + modulus - 1) % modulus else num
     if stored then (popped + 1) % modulus else popped) =
      num + stored.toNat - taken.toNat := by
  have hpop : 1 ≤ num → (num + modulus - 1) % modulus = num - 1 := by
    intro hnum
    rw [show num + modulus - 1 = num - 1 + modulus by omega, Nat.add_mod_right]
    exact Nat.mod_eq_of_lt (by omega)
  cases stored with
  | false =>
    cases taken with
    | false => rfl
    | true => exact hpop (hget rfl)
  | true =>
    cases taken with
    | false => exact Nat.mod_eq_of_lt (hput rfl)
    | true =>
      have hnum := hget rfl
      change ((num + modulus - 1) % modulus + 1) % modulus = num + 1 - 1
      rw [hpop hnum, Nat.mod_eq_of_lt (by omega)]
      omega

theorem SameRegisters.step (hlen : length ≤ 65535)
    (h : SameRegisters (bufferConfig length hpos initBuffer oneProc) b u)
    (hok : b.agreed length calls) :
    SameRegisters (bufferConfig length hpos initBuffer oneProc)
        ((Buffer.machine T length).step b calls).1
        ((Synth.bufferMachine T (bufferConfig length hpos initBuffer oneProc)).step u calls).1 ∧
      ((Buffer.machine T length).step b calls).2 =
        ((Synth.bufferMachine T (bufferConfig length hpos initBuffer oneProc)).step u calls).2 := by
  have hc := bufferConfig_accepted length hpos initBuffer oneProc
  have hallowed := h.allowed hok
  have hinv := (Synth.step_refines hc h.inv hallowed).1
  have hd := Synth.settle_driven (Config.not_comb_both hc) h.inv hallowed
  have ha : (u.settle (bufferConfig length hpos initBuffer oneProc) calls.toCalls).AsyncDone _ :=
    Synth.settle_asyncDone calls.toCalls u
  have ht := Synth.settle_inv h.inv calls.toCalls
  have hroom := Synth.push_room ht ha hd
  have hstored := Synth.pop_stored ha hd
  have hnum := ha.elementNum.trans (Config.elemNum_eq ht.room hroom hstored)
  obtain ⟨hready, hvalid, hdata⟩ :=
    @bufferConfig_settle T _ length hpos initBuffer oneProc u calls.toCalls
  have hput := hd.putReq
  have hget := hd.getReq
  have hin := hd.dataIn
  have hbready : b.ready length = (u.elementNumD != length) := by rw [← h.elementNum]; rfl
  have hbreq : b.request = (u.elementNumD != 0) := by rw [← h.elementNum]; rfl
  rw [hready] at hput hin
  rw [hvalid] at hget
  have hedge := @Buffer.edge_reported T length b calls h.putReq h.getReq
  simp only [hbready, hbreq, h.putWaiting, h.getWaiting] at hedge
  have hwait := h.inv.putWaiting
  rw [hwait] at hput hin
  simp only [Calls.resume] at hput hget hin
  have hpush := h.inv.pushIndx_lt
  have hpop := h.inv.popIndx_lt
  refine ⟨⟨hinv, ?_, ?_, ?_, ?_, ?_, ?_, ?_, ?_⟩, ?_⟩
  · refine (congrArg Buffer.popIndx hedge).trans (Eq.trans ?_ (Synth.edge_popIndx ht).symm)
    rw [hget, h.popIndx]
    exact Buffer.nextIndx_ite hlen hpop _
  · refine (congrArg Buffer.pushIndx hedge).trans (Eq.trans ?_ (Synth.edge_pushIndx ht).symm)
    rw [hput, h.pushIndx]
    exact Buffer.nextIndx_ite hlen hpush _
  · refine (congrArg Buffer.elementNum hedge).trans (Eq.trans ?_ hnum.symm)
    rw [hput, hget, h.elementNum]
    apply Buffer.count_eq
    · exact Nat.lt_succ_of_le (Nat.le_trans h.inv.room hlen)
    · intro hs
      have hfull : u.elementNumD ≠ length := by
        intro hn
        simp [hn] at hs
      have := h.inv.room
      simp only [bufferConfig] at this
      omega
    · intro hs
      have hzero : u.elementNumD ≠ 0 := by
        intro hn
        simp [hn] at hs
      omega
  · refine (congrArg Buffer.buffer hedge).trans ?_
    have hbuf : ((Synth.bufferMachine T (bufferConfig length hpos initBuffer oneProc)).step
        u calls).1.buffer = if (u.settle _ calls.toCalls).putReq then
          Function.update u.buffer u.pushIndx (u.settle _ calls.toCalls).dataIn
          else u.buffer := rfl
    rw [hbuf, hput, h.buffer, h.pushIndx]
    cases hs : (calls.put.resume none).stored (u.elementNumD != length) with
    | none => rfl
    | some data => simp [hin data hs]
  · exact congrArg Buffer.putReq hedge
  · exact congrArg Buffer.getReq hedge
  · refine (congrArg Buffer.putWaiting hedge).trans ?_
    have hfree := (Bool.and_eq_true_iff.mp hok).1
    cases hcall : calls.put with
    | bPut data =>
      rw [hcall] at hfree
      simp only [hbready] at hfree
      simp [PutCall.resume, PutCall.waits, hfree]
    | _ => rfl
  · refine (congrArg Buffer.getWaiting hedge).trans ?_
    rfl
  · exact h.returns hok

def bufferSimulation (hlen : length ≤ 65535) :
    Simulation (Buffer.machine T length)
      (Synth.bufferMachine T (bufferConfig length hpos initBuffer oneProc))
      (fun b calls => b.agreed length calls) where
  Rel b u := SameRegisters _ b u
  step _ _ _ h hok := (h.step hlen hok).1
  output _ _ _ h hok := (h.step hlen hok).2

theorem initial_sameRegisters :
    SameRegisters (bufferConfig length hpos initBuffer oneProc) (Buffer.initial : Buffer T)
      (Synth.reset (bufferConfig length hpos initBuffer oneProc) default) := by
  refine ⟨Synth.reset_inv _, rfl, rfl, rfl, ?_, rfl, rfl, rfl, rfl⟩
  funext i
  simp only [Buffer.initial, Synth.reset]
  split <;> rfl

/-- The buffer and the FIFO return the same in every call, in whatever order
the processes run. -/
theorem buffer_eq_synthesis (hpos : 0 < length) (hlen : length ≤ 65535)
    (initBuffer oneProc : Bool) {calls : List (BufferCalls T)}
    (hok : (Buffer.machine T length).EveryStep (fun b calls => b.agreed length calls)
      Buffer.initial calls) :
    (Buffer.machine T length).outputs Buffer.initial calls =
      (Synth.bufferMachine T (bufferConfig length hpos initBuffer oneProc)).outputs
        (Synth.reset (bufferConfig length hpos initBuffer oneProc) default) calls :=
  (bufferSimulation hlen).outputs_eq initial_sameRegisters hok

theorem buffer_eq_synthesis_both_orders :
    let calls : List (BufferCalls Nat) :=
      [⟨⟨.put 1, .bGet⟩, false, true⟩, ⟨⟨.put 2, .get⟩, true, true⟩,
       ⟨⟨.putMask 3 true, .getEnable true⟩, true, false⟩, ⟨⟨.idle, .get⟩, false, false⟩]
    (Buffer.machine Nat 2).outputs Buffer.initial calls =
      (Synth.bufferMachine Nat (bufferConfig 2 (by decide) false false)).outputs
        (Synth.reset (bufferConfig 2 (by decide) false false) default) calls := by
  intro calls
  have hok : (Buffer.machine Nat 2).EveryStep (fun b calls => b.agreed 2 calls)
      Buffer.initial calls := ⟨rfl, rfl, rfl, rfl, trivial⟩
  exact buffer_eq_synthesis (by decide) (by decide) false false hok

/-- A get on an empty buffer returns the data of a put that ran before it in the
same delta cycle, and the old data when it runs first, as after synthesis. -/
theorem empty_get_depends_on_order :
    let first : List (BufferCalls Nat) := [⟨⟨.put 7, .get⟩, false, true⟩]
    let second : List (BufferCalls Nat) := [⟨⟨.put 7, .get⟩, false, false⟩]
    let synthesized := (Synth.bufferMachine Nat (bufferConfig 2 (by decide) false false)).outputs
      (Synth.reset (bufferConfig 2 (by decide) false false) default) first
    (Buffer.machine Nat 2).outputs Buffer.initial first ≠
        (Buffer.machine Nat 2).outputs Buffer.initial second ∧
      (Buffer.machine Nat 2).outputs Buffer.initial first ≠ synthesized ∧
      ((Buffer.machine Nat 2).outputs Buffer.initial first).map BufferReturns.data = [some 7] ∧
      synthesized.map BufferReturns.data = [some 0] := by
  decide

end
end SystemcCompiler.Fifo
