import SystemcCompiler.Components.FifoSim

/-! The synthesized `sct_fifo`: the requests of thread sides are combinational
signals that every cycle clears, so both sides act in the cycle of their call. -/
namespace SystemcCompiler.Fifo
open Channel

variable {T : Type}

/-- `put_req` in the cycle of a thread's call, cleared when there is none. -/
def PutCall.combReq (call : PutCall T) (readyPush : Bool) : Bool :=
  match call with
  | .put _ => readyPush
  | .putMask _ mask => readyPush && mask
  | .bPut _ => readyPush
  | .idle | .clearPut => false

/-- `data_in` in the cycle of a thread's call: a `b_put` assigns it before it
waits, and it is cleared in the cycles after. -/
def PutCall.combData [Inhabited T] (waiting : Option T) (call : PutCall T) : T :=
  match waiting, call with
  | none, .put data | none, .putMask data _ | none, .bPut data => data
  | none, .clearPut | none, .idle | some _, _ => default

/-- `get_req` in the cycle of a thread's call. -/
def GetCall.combReq (call : GetCall) (outValid : Bool) : Bool :=
  match call with
  | .get => outValid
  | .getEnable enable => outValid && enable
  | .bGet => outValid
  | .idle | .clearGet => false

theorem PutCall.combReq_eq (call : PutCall T) (ready : Bool) :
    call.combReq ready = (call.stored ready).isSome := by
  cases call <;> cases ready <;> grind [combReq, stored]

theorem GetCall.combReq_eq (call : GetCall) (valid : Bool) :
    call.combReq valid = call.taken valid := by
  cases call <;> rfl

structure Synth (T : Type) where
  putReq : Bool
  getReq : Bool
  dataIn : T
  dataOut : T
  readyPush : Bool
  outValid : Bool
  popIndx : Nat
  pushIndx : Nat
  elementNum : Nat
  elementNumD : Nat
  buffer : Nat → T
  putWaiting : Option T
  getWaiting : Bool
  deriving Inhabited

namespace Synth

section
variable [Inhabited T] (c : Config)

def asyncProc (s : Synth T) : Synth T :=
  let outValid := s.elementNumD != 0
  let readyPush := s.elementNumD != c.length
  let push := s.putReq
  let pop := s.getReq
  { s with
    outValid :=
      if !c.syncValid then (if c.cthreadPut then outValid else push || outValid) else outValid
    dataOut :=
      if !c.syncValid && !c.cthreadPut && !outValid then s.dataIn else s.buffer s.popIndx
    readyPush :=
      if !c.syncReady then (if c.cthreadGet then readyPush else pop || readyPush) else readyPush
    elementNum :=
      if pop && !push then c.elemNumDec s.elementNumD
      else if !pop && push then c.elemNumInc s.elementNumD
      else s.elementNumD }

/-- The calls of both sides, in the cycle they act in. -/
def processes (calls : Calls T) (s : Synth T) : Synth T :=
  { s with
    putReq :=
      if c.cthreadPut then (calls.put.resume s.putWaiting).combReq s.readyPush
      else calls.put.methodReq s.readyPush s.putReq
    dataIn :=
      if c.cthreadPut then calls.put.combData s.putWaiting
      else calls.put.methodData s.dataIn
    getReq :=
      if c.cthreadGet then (calls.get.resume s.getWaiting).combReq s.outValid
      else calls.get.methodReq s.outValid s.getReq }

def settle (calls : Calls T) (s : Synth T) : Synth T :=
  asyncProc c (processes c calls (asyncProc c (processes c calls (asyncProc c s))))

def syncProc (s : Synth T) : Synth T :=
  { s with
    popIndx := if s.getReq then c.nextIndx s.popIndx else s.popIndx
    buffer := if s.putReq then Function.update s.buffer s.pushIndx s.dataIn else s.buffer
    pushIndx := if s.putReq then c.nextIndx s.pushIndx else s.pushIndx
    elementNumD := s.elementNum }

/-- The clock edge: the registers, and which threads stay in a blocking call. -/
def edge (calls : Calls T) (t : Synth T) : Synth T :=
  { syncProc c t with
    putWaiting :=
      if c.cthreadPut then (calls.put.resume t.putWaiting).waits t.readyPush else t.putWaiting
    getWaiting :=
      if c.cthreadGet then (calls.get.resume t.getWaiting).waits t.outValid else t.getWaiting }

def returns (calls : Calls T) (t : Synth T) : Returns T where
  ready := t.readyPush
  request := t.outValid
  put := (calls.resume t.putWaiting t.getWaiting).put.stored t.readyPush
  get :=
    if (calls.resume t.putWaiting t.getWaiting).get.taken t.outValid then some t.dataOut
    else none
  peek := if t.outValid then some t.dataOut else none

def reset (s : Synth T) : Synth T :=
  { s with
    popIndx := 0
    pushIndx := 0
    elementNumD := 0
    buffer := fun i =>
      if i = 0 ∨ (c.initBuffer ∧ i < c.length) then default else s.buffer i
    putReq := false
    getReq := false
    dataIn := default
    putWaiting := none
    getWaiting := false }

def machine (T : Type) [Inhabited T] (c : Config) : Mealy (Calls T) (Returns T) where
  State := Synth T
  step s calls :=
    let t := s.settle c calls
    (t.edge c calls, t.returns calls)

end

/-- `element_num_d` is the number of elements and no put waits; a METHOD's held
request plays no part. -/
structure Inv (c : Config) (s : Synth T) : Prop where
  popIndx_lt : s.popIndx < c.length
  pushIndx_eq : s.pushIndx = (s.popIndx + s.elementNumD) % c.length
  room : s.elementNumD ≤ c.length
  putWaiting : s.putWaiting = none
  getWaiting : s.getWaiting → c.cthreadGet

theorem Inv.pushIndx_lt {c : Config} {s : Synth T} (h : s.Inv c) : s.pushIndx < c.length := by
  rw [h.pushIndx_eq]
  exact Nat.mod_lt _ c.length_pos

def content (c : Config) (s : Synth T) : List T :=
  Ring.contents c.length s.buffer s.popIndx s.elementNumD

def toQueue (c : Config) (s : Synth T) : Queue T :=
  ⟨s.content c, s.putWaiting, s.getWaiting⟩

/-- The requests of a cycle are what the calls report. -/
structure Driven (t : Synth T) (calls : Calls T) : Prop where
  putReq : t.putReq = (calls.put.stored t.readyPush).isSome
  dataIn : ∀ data, calls.put.stored t.readyPush = some data → t.dataIn = data
  getReq : t.getReq = calls.get.taken t.outValid

/-- `asyncProc` has nothing left to do. -/
structure AsyncDone (c : Config) (t : Synth T) : Prop where
  outValid : t.outValid =
    if !c.syncValid then
      (if c.cthreadPut then t.elementNumD != 0 else t.putReq || t.elementNumD != 0)
    else t.elementNumD != 0
  dataOut : t.dataOut =
    if !c.syncValid && !c.cthreadPut && !(t.elementNumD != 0) then t.dataIn
    else t.buffer t.popIndx
  readyPush : t.readyPush =
    if !c.syncReady then
      (if c.cthreadGet then t.elementNumD != c.length else t.getReq || t.elementNumD != c.length)
    else t.elementNumD != c.length
  elementNum : t.elementNum =
    if t.getReq && !t.putReq then c.elemNumDec t.elementNumD
    else if !t.getReq && t.putReq then c.elemNumInc t.elementNumD else t.elementNumD

section
variable {c : Config} {t : Synth T} {calls : Calls T} (hc : c.accepted) (h : t.Inv c)
  (ha : t.AsyncDone c) (hd : t.Driven calls)

theorem content_length (s : Synth T) : (s.content c).length = s.elementNumD := by
  simp [content]

theorem content_isEmpty (s : Synth T) : (!(s.content c).isEmpty) = (s.elementNumD != 0) := by
  rw [Bool.eq_iff_iff]
  simp [content, Ring.contents_eq_nil]

theorem content_head (h : t.Inv c) (hn : t.elementNumD ≠ 0) :
    (t.content c).head? = some (t.buffer t.popIndx) := by
  rw [content, List.head?_eq_getElem?, Ring.contents_get _ _ _ _ _ (by omega),
    Nat.add_zero, Nat.mod_eq_of_lt h.popIndx_lt]

section
include hc ha hd

theorem readyPush_eq : t.readyPush = (t.toQueue c).ready c calls.get := by
  have hvalid := ha.outValid
  rw [Queue.ready, toQueue]
  simp only
  rw [content_length, content_isEmpty, ha.readyPush, hd.getReq]
  cases hcomb : c.combReady with
  | false =>
    unfold Config.combReady at hcomb
    grind
  | true =>
    have hnot := (Config.not_comb_both hc).resolve_right (by simp [hcomb])
    unfold Config.combReady at hcomb
    unfold Config.combValid at hnot
    grind

theorem offered_eq :
    (t.toQueue c).offered c calls =
      if c.combValid then t.content c ++ (calls.put.stored t.readyPush).toList
      else t.content c := by
  rw [Queue.offered, ← readyPush_eq hc ha hd]
  rfl

theorem outValid_eq : t.outValid = !((t.toQueue c).offered c calls).isEmpty := by
  have hempty := content_isEmpty (c := c) t
  rw [offered_eq hc ha hd, ha.outValid, hd.putReq, ← hempty]
  unfold Config.combValid
  cases c.cthreadPut <;> cases c.syncValid <;>
    cases calls.put.stored t.readyPush <;> simp

omit hc in
include h in
/-- What a valid output shows is the oldest element, counting a put of the cycle. -/
theorem dataOut_head (hv : t.outValid = true) :
    (t.content c ++ (calls.put.stored t.readyPush).toList).head? = some t.dataOut := by
  have hvalid := ha.outValid
  rw [ha.dataOut]
  by_cases hn : t.elementNumD = 0
  · have hput : c.cthreadPut = false ∧ c.syncValid = false ∧ t.putReq = true := by grind
    obtain ⟨hthread, hsync, hpush⟩ := hput
    obtain ⟨data, hdata⟩ := Option.isSome_iff_exists.mp (hd.putReq.symm.trans hpush)
    have hnil : t.content c = [] := Ring.contents_eq_nil.mpr hn
    simp [hthread, hsync, hnil, hdata, hn, hd.dataIn data hdata]
  · have hhead := content_head h hn
    simp [hhead, hn]

include h in
theorem dataOut_eq (hv : t.outValid = true) :
    ((t.toQueue c).offered c calls).head? = some t.dataOut := by
  have hhead := dataOut_head h ha hd hv
  have hvalid := outValid_eq hc ha hd
  rw [offered_eq hc ha hd] at hvalid ⊢
  split at hvalid
  · rw [if_pos ‹_›]
    exact hhead
  · rw [if_neg ‹_›]
    cases hcontent : t.content c with
    | nil => simp [hcontent, hv] at hvalid
    | cons data rest =>
      rw [hcontent] at hhead
      exact hhead

omit hc in
include h in
/-- A push has room, counting the slot freed at the same edge. -/
theorem push_room : t.elementNumD + t.putReq.toNat ≤ c.length + t.getReq.toNat := by
  have hready := ha.readyPush
  have hroom := h.room
  cases hp : t.putReq with
  | false => simp; omega
  | true =>
    have hr : t.readyPush = true := by
      by_contra hnot
      have := hd.putReq
      simp [hp, Bool.eq_false_iff.mpr hnot] at this
    have hfree : t.getReq = true ∨ t.elementNumD ≠ c.length := by grind
    rcases hfree with hg | hn
    · simp [hg]
      omega
    · simp
      omega

omit hc in
theorem pop_stored : t.getReq.toNat ≤ t.elementNumD + t.putReq.toNat := by
  have hvalid := ha.outValid
  cases hg : t.getReq with
  | false => simp
  | true =>
    have hv : t.outValid = true := by
      by_contra hnot
      have := hd.getReq
      simp [hg, Bool.eq_false_iff.mpr hnot] at this
    have hhave : t.putReq = true ∨ t.elementNumD ≠ 0 := by grind
    rcases hhave with hp | hn
    · simp [hp]
    · simp
      omega

end
end

section
variable {c : Config}

/-- No blocking put has to wait: there is room, or the get side makes room. -/
def putUnblocked (c : Config) (q : Queue T) (calls : Calls T) : Bool :=
  match calls.put with
  | .bPut _ => q.ready c (calls.get.resume q.getWaiting)
  | _ => true

/-- METHOD sides call in every cycle and no put blocks. -/
def allowed (c : Config) (s : Synth T) (calls : Calls T) : Bool :=
  (c.cthreadPut || calls.put.drives s.putReq) && (c.cthreadGet || calls.get.drives s.getReq) &&
    putUnblocked c (s.toQueue c) calls

theorem allowed_iff {s : Synth T} {calls : Calls T} :
    s.allowed c calls ↔ (c.cthreadPut ∨ calls.put.drives s.putReq) ∧
      (c.cthreadGet ∨ calls.get.drives s.getReq) ∧ putUnblocked c (s.toQueue c) calls := by
  simp [allowed, and_assoc]

theorem edge_popIndx {t : Synth T} {calls : Calls T} (h : t.Inv c) :
    (edge c calls t).popIndx = (t.popIndx + t.getReq.toNat) % c.length := by
  have hedge : (edge c calls t).popIndx =
      if t.getReq then c.nextIndx t.popIndx else t.popIndx := rfl
  rw [hedge, Config.nextIndx_eq h.popIndx_lt]
  cases t.getReq <;> simp [Nat.mod_eq_of_lt h.popIndx_lt]

theorem edge_pushIndx {t : Synth T} {calls : Calls T} (h : t.Inv c) :
    (edge c calls t).pushIndx = (t.pushIndx + t.putReq.toNat) % c.length := by
  have hedge : (edge c calls t).pushIndx =
      if t.putReq then c.nextIndx t.pushIndx else t.pushIndx := rfl
  have hlt := h.pushIndx_lt
  rw [hedge, Config.nextIndx_eq hlt]
  cases t.putReq <;> simp [Nat.mod_eq_of_lt hlt]

theorem edge_content {t : Synth T} {calls resumed : Calls T} (h : t.Inv c) (ha : t.AsyncDone c)
    (hd : t.Driven resumed) :
    (edge c calls t).content c =
      (t.content c ++ (resumed.put.stored t.readyPush).toList).drop
        (resumed.get.taken t.outValid).toNat := by
  have hbuffer : (edge c calls t).buffer =
      if t.putReq.toNat = 1 then
        Function.update t.buffer ((t.popIndx + t.elementNumD) % c.length) t.dataIn
      else t.buffer := by
    rw [← h.pushIndx_eq]
    cases hp : t.putReq <;> simp [edge, syncProc, hp]
  have hnum : (edge c calls t).elementNumD = t.elementNumD + t.putReq.toNat - t.getReq.toNat :=
    ha.elementNum.trans
      (Config.elemNum_eq h.room (push_room h ha hd) (pop_stored ha hd))
  have hstored : List.replicate t.putReq.toNat t.dataIn =
      (resumed.put.stored t.readyPush).toList := by
    have hin := hd.dataIn
    rw [hd.putReq]
    cases hs : resumed.put.stored t.readyPush with
    | none => rfl
    | some data => simp [hin data hs]
  rw [content, hbuffer, edge_popIndx h, hnum,
    Ring.contents_pushPop _ _ (Bool.toNat_le _) (push_room h ha hd) (pop_stored ha hd), hstored,
    hd.getReq]
  rfl

theorem edge_inv {t : Synth T} {calls : Calls T} (h : t.Inv c) (ha : t.AsyncDone c)
    (hd : t.Driven (calls.resume t.putWaiting t.getWaiting))
    (hwait : c.cthreadPut → (calls.put.resume t.putWaiting).waits t.readyPush = none) :
    (edge c calls t).Inv c := by
  have hroom := push_room h ha hd
  have hstored := pop_stored ha hd
  have hnum : (edge c calls t).elementNumD = t.elementNumD + t.putReq.toNat - t.getReq.toNat :=
    ha.elementNum.trans (Config.elemNum_eq h.room hroom hstored)
  constructor
  · rw [edge_popIndx h]
    exact Nat.mod_lt _ c.length_pos
  · rw [edge_pushIndx h, edge_popIndx h, hnum, h.pushIndx_eq, Nat.mod_add_mod, Nat.mod_add_mod]
    congr 1
    omega
  · rw [hnum]
    omega
  · have hedge : (edge c calls t).putWaiting =
        if c.cthreadPut then (calls.put.resume t.putWaiting).waits t.readyPush
        else t.putWaiting := rfl
    rw [hedge]
    split
    · exact hwait ‹_›
    · exact h.putWaiting
  · have hedge : (edge c calls t).getWaiting =
        if c.cthreadGet then (calls.get.resume t.getWaiting).waits t.outValid
        else t.getWaiting := rfl
    rw [hedge]
    intro hw
    split at hw
    · assumption
    · exact h.getWaiting hw

end

section
variable [Inhabited T] {c : Config}

theorem settle_processes (hloop : c.combValid = false ∨ c.combReady = false) (calls : Calls T)
    (s : Synth T) :
    processes c calls (settle c calls s) = settle c calls s := by
  obtain ⟨length, hpos, cp, cg, sv, sr, ib, op⟩ := c
  cases cp <;> cases cg <;> cases sv <;> cases sr <;>
    first
    | simp [settle, processes, asyncProc]; done
    | exact absurd hloop (by simp [Config.combValid, Config.combReady])

theorem settle_putReq (hloop : c.combValid = false ∨ c.combReady = false) (calls : Calls T)
    (s : Synth T) :
    (settle c calls s).putReq =
      if c.cthreadPut then (calls.put.resume s.putWaiting).combReq (settle c calls s).readyPush
      else calls.put.methodReq (settle c calls s).readyPush s.putReq := by
  have hfix := congrArg putReq (settle_processes hloop calls s)
  cases hm : c.cthreadPut with
  | true =>
    rw [← hfix]
    simp only [processes, hm]
    rfl
  | false =>
    have hheld : ∃ ready, (settle c calls s).putReq = calls.put.methodReq ready s.putReq := by
      refine ⟨(asyncProc c (processes c calls (asyncProc c s))).readyPush, ?_⟩
      simp [settle, processes, asyncProc, hm]
    obtain ⟨ready, hready⟩ := hheld
    simp only [processes, hm, Bool.false_eq_true, if_false] at hfix
    rw [← hfix, hready, PutCall.methodReq_idem]
    simp

theorem settle_getReq (hloop : c.combValid = false ∨ c.combReady = false) (calls : Calls T)
    (s : Synth T) :
    (settle c calls s).getReq =
      if c.cthreadGet then (calls.get.resume s.getWaiting).combReq (settle c calls s).outValid
      else calls.get.methodReq (settle c calls s).outValid s.getReq := by
  have hfix := congrArg getReq (settle_processes hloop calls s)
  cases hm : c.cthreadGet with
  | true =>
    rw [← hfix]
    simp only [processes, hm]
    rfl
  | false =>
    have hheld : ∃ valid, (settle c calls s).getReq = calls.get.methodReq valid s.getReq := by
      refine ⟨(asyncProc c (processes c calls (asyncProc c s))).outValid, ?_⟩
      simp [settle, processes, asyncProc, hm]
    obtain ⟨valid, hvalid⟩ := hheld
    simp only [processes, hm, Bool.false_eq_true, if_false] at hfix
    rw [← hfix, hvalid, GetCall.methodReq_idem]
    simp

theorem settle_dataIn (calls : Calls T) (s : Synth T) :
    (settle c calls s).dataIn =
      if c.cthreadPut then calls.put.combData s.putWaiting
      else calls.put.methodData s.dataIn := by
  simp [settle, processes, asyncProc]
  split <;> simp [*]

theorem settle_asyncDone (calls : Calls T) (s : Synth T) : (settle c calls s).AsyncDone c :=
  ⟨rfl, rfl, rfl, rfl⟩

theorem settle_inv {s : Synth T} (h : s.Inv c) (calls : Calls T) : (settle c calls s).Inv c :=
  ⟨h.popIndx_lt, h.pushIndx_eq, h.room, h.putWaiting, h.getWaiting⟩

theorem settle_driven (hloop : c.combValid = false ∨ c.combReady = false) {s : Synth T}
    (h : s.Inv c) {calls : Calls T} (hok : s.allowed c calls) :
    (settle c calls s).Driven (calls.resume s.putWaiting s.getWaiting) := by
  obtain ⟨hput, hget, -⟩ := allowed_iff.mp hok
  have hnone := h.putWaiting
  constructor
  · rw [settle_putReq hloop]
    cases hm : c.cthreadPut with
    | true => exact PutCall.combReq_eq _ _
    | false =>
      rw [hnone]
      exact PutCall.methodReq_of_drives (hput.resolve_left (by simp [hm])) _
  · intro data hdata
    rw [settle_dataIn]
    rw [hnone] at hdata ⊢
    change calls.put.stored _ = some data at hdata
    cases hm : c.cthreadPut with
    | true => cases hcall : calls.put <;> simp_all [PutCall.stored, PutCall.combData]
    | false => exact PutCall.methodData_of_stored (hput.resolve_left (by simp [hm])) hdata _
  · rw [settle_getReq hloop]
    cases hm : c.cthreadGet with
    | true => exact GetCall.combReq_eq _ _
    | false =>
      have hw : s.getWaiting = false := by
        cases hw : s.getWaiting with
        | false => rfl
        | true => simp [h.getWaiting hw] at hm
      rw [hw]
      exact GetCall.methodReq_of_drives (hget.resolve_left (by simp [hm])) _

/-- One cycle of the synthesized FIFO is one cycle of the queue. -/
theorem step_refines (hc : c.accepted) {s : Synth T} (h : s.Inv c) {calls : Calls T}
    (hok : s.allowed c calls) :
    ((machine T c).step s calls).1.Inv c ∧
    ((machine T c).step s calls).1.toQueue c = ((s.toQueue c).step c calls).1 ∧
    ((machine T c).step s calls).2 = ((s.toQueue c).step c calls).2 := by
  have ht := settle_inv h calls
  have ha : (settle c calls s).AsyncDone c := settle_asyncDone calls s
  have hd := settle_driven (Config.not_comb_both hc) h hok
  have hq : (settle c calls s).toQueue c = s.toQueue c := rfl
  have hready := readyPush_eq hc ha hd
  have hvalid := outValid_eq hc ha hd
  have hdata := dataOut_eq hc ht ha hd
  rw [hq] at hready hvalid hdata
  obtain ⟨hput, hget, hfree⟩ := allowed_iff.mp hok
  have hnone := h.putWaiting
  have hwaits : (calls.put.resume s.putWaiting).waits (settle c calls s).readyPush = none := by
    rw [hready, hnone]
    unfold putUnblocked at hfree
    cases hcall : calls.put <;> simp_all [PutCall.resume, PutCall.waits, Calls.resume, toQueue]
  have hgetWaits : (edge c calls (settle c calls s)).getWaiting =
      (calls.get.resume s.getWaiting).waits (settle c calls s).outValid := by
    have hedge : (edge c calls (settle c calls s)).getWaiting =
        if c.cthreadGet then (calls.get.resume s.getWaiting).waits (settle c calls s).outValid
        else s.getWaiting := rfl
    rw [hedge]
    cases hm : c.cthreadGet with
    | true => rfl
    | false =>
      have hw : s.getWaiting = false := by
        cases hw : s.getWaiting with
        | false => rfl
        | true => simp [h.getWaiting hw] at hm
      rw [hw]
      exact (GetCall.waits_of_drives (hget.resolve_left (by simp [hm])) _).symm
  have hinv := edge_inv ht ha hd (fun _ => hwaits)
  have hcycle := Queue.cycle_eq c (toQueue c (edge c calls (settle c calls s)))
    hready hvalid hdata (edge_content ht ha hd) (hinv.putWaiting.trans hwaits.symm) hgetWaits
  exact ⟨hinv, congrArg Prod.fst hcycle.symm, congrArg Prod.snd hcycle.symm⟩

omit [Inhabited T] in
/-- A clock edge takes from the front of the queue what the gets of the cycle return. -/
theorem edge_law {t : Synth T} {calls : Calls T} (h : t.Inv c) (ha : t.AsyncDone c)
    (hd : t.Driven (calls.resume t.putWaiting t.getWaiting)) :
    t.content c ++ (t.returns calls).put.toList =
      (t.returns calls).get.toList ++ (t.edge c calls).content c := by
  have hhead := dataOut_head h ha hd
  rw [edge_content h ha hd]
  unfold returns
  by_cases htaken : (calls.resume t.putWaiting t.getWaiting).get.taken t.outValid = true
  · have hv : t.outValid = true := by
      by_contra hnot
      simp [Bool.eq_false_iff.mpr hnot] at htaken
    obtain ⟨rest, hrest⟩ := List.head?_eq_some_iff.mp (hhead hv)
    dsimp only
    rw [if_pos htaken, htaken, hrest]
    rfl
  · dsimp only
    rw [if_neg htaken, Bool.eq_false_iff.mpr htaken]
    rfl

/-- The synthesized FIFO holds a queue when a METHOD puts and no combinational loop
joins the sides. -/
def queueLaw (T : Type) [Inhabited T] (hput : c.cthreadPut = false)
    (hloop : c.combValid = false ∨ c.combReady = false) :
    QueueLaw (machine T c) ports (fun s calls => s.allowed c calls) where
  Inv s := Inv c s
  content s := content c s
  inv _ calls h hok :=
    edge_inv (settle_inv h calls) (settle_asyncDone calls _) (settle_driven hloop h hok)
      (by simp [hput])
  law _ calls h hok :=
    edge_law (settle_inv h calls) (settle_asyncDone calls _) (settle_driven hloop h hok)

theorem step_putReq (hc : c.accepted) {s : Synth T} (h : s.Inv c) {calls : Calls T}
    (hok : s.allowed c calls) :
    ((machine T c).step s calls).1.putReq = ((machine T c).step s calls).2.put.isSome :=
  (settle_driven (Config.not_comb_both hc) h hok).putReq

theorem step_getReq (hc : c.accepted) {s : Synth T} (h : s.Inv c) {calls : Calls T}
    (hok : s.allowed c calls) :
    ((machine T c).step s calls).1.getReq = ((machine T c).step s calls).2.get.isSome := by
  have hreq : ((machine T c).step s calls).1.getReq =
      (calls.resume s.putWaiting s.getWaiting).get.taken (settle c calls s).outValid :=
    (settle_driven (Config.not_comb_both hc) h hok).getReq
  have hget : ((machine T c).step s calls).2.get =
      if (calls.resume s.putWaiting s.getWaiting).get.taken (settle c calls s).outValid
      then some (settle c calls s).dataOut else none := rfl
  rw [hreq, hget]
  cases (calls.resume s.putWaiting s.getWaiting).get.taken (settle c calls s).outValid <;> rfl

theorem reset_inv (s : Synth T) : (s.reset c).Inv c :=
  ⟨c.length_pos, (Nat.zero_mod _).symm, Nat.zero_le _, rfl, fun hw => by cases hw⟩

end
end Synth

section
variable [Inhabited T] {c : Config}

/-- The cycles both versions agree in: METHOD sides call in every cycle and no
put blocks. -/
def Sim.agreed (c : Config) (s : Sim T) (calls : Calls T) : Bool :=
  s.allowed c calls && Synth.putUnblocked c (s.toQueue c) calls

/-- Both versions hold the same queue; the requests of METHODs are the same signals. -/
structure SameQueue (c : Config) (s : Sim T) (u : Synth T) : Prop where
  sim : s.Inv c
  synth : u.Inv c
  queue : s.toQueue c = u.toQueue c
  putReq : c.cthreadPut = false → s.putReq = u.putReq
  getReq : c.cthreadGet = false → s.getReq = u.getReq

omit [Inhabited T] in
theorem SameQueue.allowed {s : Sim T} {u : Synth T} (h : SameQueue c s u) {calls : Calls T}
    (hok : s.agreed c calls) : u.allowed c calls := by
  obtain ⟨hsim, hfree⟩ := Bool.and_eq_true_iff.mp hok
  refine Synth.allowed_iff.mpr ⟨?_, ?_, ?_⟩
  · cases hm : c.cthreadPut with
    | true => exact .inl rfl
    | false => exact .inr (h.putReq hm ▸ Sim.drives_put hsim hm)
  · cases hm : c.cthreadGet with
    | true => exact .inl rfl
    | false => exact .inr (h.getReq hm ▸ Sim.drives_get hsim hm)
  · rw [← h.queue]
    exact hfree

theorem SameQueue.step (hc : c.accepted) {s : Sim T} {u : Synth T} (h : SameQueue c s u)
    {calls : Calls T} (hok : s.agreed c calls) :
    SameQueue c ((Sim.machine T c).step s calls).1 ((Synth.machine T c).step u calls).1 ∧
    ((Sim.machine T c).step s calls).2 = ((Synth.machine T c).step u calls).2 := by
  have hsim := (Bool.and_eq_true_iff.mp hok).1
  have hsynth := h.allowed hok
  obtain ⟨hs, hsq, hsr⟩ := Sim.step_refines hc h.sim hsim
  obtain ⟨hu, huq, hur⟩ := Synth.step_refines hc h.synth hsynth
  have hreturns : ((Sim.machine T c).step s calls).2 = ((Synth.machine T c).step u calls).2 := by
    rw [hsr, hur, h.queue]
  refine ⟨⟨hs, hu, by rw [hsq, huq, h.queue], fun hm => ?_, fun hm => ?_⟩, hreturns⟩
  · rw [Sim.step_putReq hc h.sim hsim hm, Synth.step_putReq hc h.synth hsynth, hreturns]
  · rw [Sim.step_getReq hc h.sim hsim hm, Synth.step_getReq hc h.synth hsynth, hreturns]

def simulation (hc : c.accepted) :
    Simulation (Sim.machine T c) (Synth.machine T c) (fun s calls => s.agreed c calls) where
  Rel s u := SameQueue c s u
  step _ _ _ h hok := (h.step hc hok).1
  output _ _ _ h hok := (h.step hc hok).2

theorem reset_sameQueue (s : Sim T) (u : Synth T) :
    SameQueue c (s.reset c) (u.reset c) where
  sim := Sim.reset_inv s
  synth := Synth.reset_inv u
  queue := by rw [Sim.reset_toQueue]; rfl
  putReq _ := rfl
  getReq _ := rfl

end
end SystemcCompiler.Fifo
