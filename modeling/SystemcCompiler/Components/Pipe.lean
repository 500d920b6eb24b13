import Mathlib.Logic.Function.Basic
import SystemcCompiler.Components.Calls

/-! `sct_pipe`: a chain of registers that close up towards the output, with an
output slot behind the last one and a pending put of a thread before the first. -/
namespace SystemcCompiler.Pipe
open Channel Fifo

/-- `for (i = n; i != 0; --i)` -/
def downTo {σ : Type} (body : Nat → σ → σ) : Nat → σ → σ
  | 0, s => s
  | i + 1, s => downTo body i (body (i + 1) s)

/-- `N` and the kinds of the two processes. -/
structure Config where
  regNum : Nat
  regNum_pos : 0 < regNum
  cthreadPut : Bool
  cthreadGet : Bool

variable {T : Type}

structure State (T : Type) where
  putReq : Bool
  putReqD : Bool
  getReq : Bool
  getReqD : Bool
  readyPush : Bool
  outValid : Bool
  enable : Nat → Bool
  dataIn : T
  dataOut : T
  regs : Nat → T
  regFull : Bool
  regFullD : Bool
  dataReg : T
  dataRegD : T
  busyReg : Nat → Bool
  busyRegD : Nat → Bool
  putWaiting : Option T
  getWaiting : Bool
  deriving Inhabited

/-- One step of the closing up of `busyRegs`, with the enable bit it sets. -/
def shiftReg (i : Nat) (s : (Nat → Bool) × (Nat → Bool)) : (Nat → Bool) × (Nat → Bool) :=
  if !s.1 i && s.1 (i - 1) then
    (Function.update (Function.update s.1 i true) (i - 1) false, Function.update s.2 i true)
  else s

/-- One step of `plProc`. -/
def moveReg (enable : Nat → Bool) (i : Nat) (regs : Nat → T) : Nat → T :=
  if enable i then Function.update regs i (regs (i - 1)) else regs

namespace State
variable (c : Config)

def push (s : State T) : Bool := if c.cthreadPut then s.putReq != s.putReqD else s.putReq
def pop (s : State T) : Bool := if c.cthreadGet then s.getReq != s.getReqD else s.getReq

/-- A get of a thread is done in this cycle. -/
def slotFull (s : State T) : Bool := if c.cthreadGet && s.pop c then false else s.regFullD

/-- The last register moves into the output slot. -/
def slotTakes (s : State T) : Bool := !s.slotFull c && s.busyRegD (c.regNum - 1)

/-- `busyRegs` and `enableRegs` after the closing up. -/
def closedUp (s : State T) : (Nat → Bool) × (Nat → Bool) :=
  downTo shiftReg (c.regNum - 1)
    (if s.slotTakes c then Function.update s.busyRegD (c.regNum - 1) false else s.busyRegD,
     fun _ => false)

def asyncProc (s : State T) : State T :=
  let (busyRegs, enableRegs) := s.closedUp c
  let regFull := if s.slotTakes c then true else s.slotFull c
  let enters := s.push c && !busyRegs 0
  { s with
    readyPush := !busyRegs 0
    outValid := regFull
    busyReg := if enters then Function.update busyRegs 0 true else busyRegs
    enable := if enters then Function.update enableRegs 0 true else enableRegs
    -- A get of a METHOD is done in the next cycle
    regFull := if !c.cthreadGet && s.pop c then false else regFull
    dataReg := if s.slotTakes c then s.dataOut else s.dataRegD }

/-- The register module: a register is loaded from the one before it. -/
def plProc (s : State T) : Nat → T :=
  let regs := downTo (moveReg s.enable) (c.regNum - 1) s.regs
  if s.enable 0 then Function.update regs 0 s.dataIn else regs

def syncProc (s : State T) : State T :=
  { s with
    busyRegD := s.busyReg
    regFullD := s.regFull
    dataRegD := s.dataReg
    -- The request is kept while it is not taken
    putReqD := if c.cthreadPut && s.readyPush then s.putReq else s.putReqD
    getReqD := if c.cthreadGet then s.getReq else s.getReqD
    regs := s.plProc c
    dataOut := s.plProc c (c.regNum - 1) }

def methods [Inhabited T] (calls : Calls T) (s : State T) : State T :=
  { s with
    putReq := if c.cthreadPut then s.putReq else calls.put.methodReq s.readyPush s.putReq
    dataIn := if c.cthreadPut then s.dataIn else calls.put.requestData s.readyPush s.dataIn
    getReq := if c.cthreadGet then s.getReq else calls.get.methodReq s.outValid s.getReq }

/-- The delta cycles between two clock edges; `ready_push` and `out_valid` depend
on no request of a METHOD. -/
def settle [Inhabited T] (calls : Calls T) (s : State T) : State T :=
  asyncProc c (methods c calls (asyncProc c s))

def edge (calls : Calls T) (t : State T) : State T :=
  let resumed := calls.resume t.putWaiting t.getWaiting
  { syncProc c t with
    putReq := if c.cthreadPut then resumed.put.threadReq t.readyPush t.putReq else t.putReq
    dataIn := if c.cthreadPut then resumed.put.keptData t.readyPush t.dataIn else t.dataIn
    putWaiting := if c.cthreadPut then resumed.put.waits t.readyPush else t.putWaiting
    getReq := if c.cthreadGet then resumed.get.threadReq t.outValid t.getReq else t.getReq
    getWaiting := if c.cthreadGet then resumed.get.waits t.outValid else t.getWaiting }

def returns (calls : Calls T) (t : State T) : Returns T where
  ready := t.readyPush
  request := t.outValid
  put := (calls.resume t.putWaiting t.getWaiting).put.stored t.readyPush
  get :=
    if (calls.resume t.putWaiting t.getWaiting).get.taken t.outValid then some t.dataReg
    else none
  peek := if t.outValid then some t.dataReg else none

/-- Reset of the registers and of `syncProc`, with the reset calls of both sides. -/
def reset [Inhabited T] (s : State T) : State T :=
  { s with
    regs := fun i => if i < c.regNum then default else s.regs i
    dataOut := default
    busyRegD := fun i => if i < c.regNum then false else s.busyRegD i
    regFullD := false
    dataRegD := default
    putReqD := if c.cthreadPut then false else s.putReqD
    getReqD := if c.cthreadGet then false else s.getReqD
    putReq := false
    getReq := false
    dataIn := default
    putWaiting := none
    getWaiting := false }

def machine (T : Type) [Inhabited T] (c : Config) : Mealy (Calls T) (Returns T) where
  State := State T
  step s calls :=
    let t := s.settle c calls
    (t.edge c calls, t.returns calls)

end State

theorem downTo_congr {σ : Type} {f g : Nat → σ → σ} {n : Nat}
    (h : ∀ i, 1 ≤ i → i ≤ n → f i = g i) (s : σ) : downTo f n s = downTo g n s := by
  induction n generalizing s with
  | zero => rfl
  | succ n ih =>
    rw [downTo, downTo, h (n + 1) (by omega) (by omega)]
    exact ih (fun i h1 h2 => h i h1 (by omega)) _

/-- The items in the busy registers below `n`, from the output on. -/
def items (busy : Nat → Bool) (regs : Nat → T) : Nat → List T
  | 0 => []
  | n + 1 => (if busy n then [regs n] else []) ++ items busy regs n

theorem items_congr {busy busy' : Nat → Bool} {regs regs' : Nat → T} {n : Nat}
    (h : ∀ i < n, busy i = busy' i ∧ regs i = regs' i) :
    items busy regs n = items busy' regs' n := by
  induction n with
  | zero => rfl
  | succ n ih =>
    rw [items, items, (h n (by omega)).1, (h n (by omega)).2,
      ih fun i hi => h i (by omega)]

/-- A register closes up to the free one after it. -/
theorem items_shift {busy : Nat → Bool} (regs : Nat → T) {i n : Nat} (hi : 1 ≤ i) (hn : i < n)
    (hfree : busy i = false) (hbusy : busy (i - 1) = true) :
    items (Function.update (Function.update busy i true) (i - 1) false)
      (Function.update regs i (regs (i - 1))) n = items busy regs n := by
  obtain ⟨j, rfl⟩ : ∃ j, i = j + 1 := ⟨i - 1, by omega⟩
  induction hn with
  | refl =>
    have hrest : items (Function.update (Function.update busy (j + 1) true) j false)
        (Function.update regs (j + 1) (regs j)) j = items busy regs j := by
      apply items_congr
      intro k hk
      simp [Function.update_of_ne (show k ≠ j by omega),
        Function.update_of_ne (show k ≠ j + 1 by omega)]
    simp only [Nat.add_sub_cancel] at hbusy ⊢
    simp [items, hrest, hfree, hbusy]
  | @step n hn ih =>
    have hn : j + 2 ≤ n := hn
    simp only [Nat.add_sub_cancel] at ih ⊢
    rw [items, items, ih]
    simp [Function.update_of_ne (show n ≠ j by omega),
      Function.update_of_ne (show n ≠ j + 1 by omega)]

/-- The last busy register gives its item away. -/
theorem items_take {busy : Nat → Bool} (regs : Nat → T) {n : Nat} (hn : 0 < n)
    (hbusy : busy (n - 1) = true) :
    items busy regs n =
      regs (n - 1) :: items (Function.update busy (n - 1) false) regs n := by
  obtain ⟨k, rfl⟩ : ∃ k, n = k + 1 := ⟨n - 1, by omega⟩
  have hrest : items (Function.update busy k false) regs k = items busy regs k := by
    apply items_congr
    intro i hi
    simp [Function.update_of_ne (show i ≠ k by omega)]
  simp only [Nat.add_sub_cancel] at hbusy ⊢
  simp [items, hrest, hbusy]

/-- A new item enters the first register. -/
theorem items_enter {busy : Nat → Bool} (regs : Nat → T) (data : T) {n : Nat} (hn : 0 < n)
    (hfree : busy 0 = false) :
    items (Function.update busy 0 true) (Function.update regs 0 data) n =
      items busy regs n ++ [data] := by
  induction hn with
  | refl => simp [items, hfree]
  | @step n hn ih =>
    have hn : 1 ≤ n := hn
    rw [items, items, ih]
    simp [Function.update_of_ne (show n ≠ 0 by omega)]

theorem downTo_shiftReg_enable (n : Nat) (s : (Nat → Bool) × (Nat → Bool)) (i : Nat)
    (hi : i = 0 ∨ n < i) : (downTo shiftReg n s).2 i = s.2 i := by
  induction n generalizing s with
  | zero => rfl
  | succ n ih =>
    rw [downTo, ih _ (by omega), shiftReg]
    split
    · exact Function.update_of_ne (by omega) _ _
    · rfl

/-- Closing up moves items along with their busy bits. -/
theorem items_closeUp {n k : Nat} (hk : k < n) (busy enable : Nat → Bool) (regs : Nat → T)
    (henable : ∀ i, 1 ≤ i → i ≤ k → enable i = false) :
    items (downTo shiftReg k (busy, enable)).1
        (downTo (moveReg (downTo shiftReg k (busy, enable)).2) k regs) n =
      items busy regs n := by
  induction k generalizing busy enable regs with
  | zero => rfl
  | succ k ih =>
    have hbit := downTo_shiftReg_enable k (shiftReg (k + 1) (busy, enable)) (k + 1) (by omega)
    rw [downTo, downTo, moveReg, hbit]
    by_cases hmove : busy (k + 1) = false ∧ busy k = true
    · have hstep : shiftReg (k + 1) (busy, enable) =
          (Function.update (Function.update busy (k + 1) true) k false,
            Function.update enable (k + 1) true) := by
        simp [shiftReg, hmove]
      rw [hstep]
      simp only [Function.update_self, if_true, Nat.add_sub_cancel]
      rw [ih (by omega) _ _ _ fun i h1 h2 => by
        rw [Function.update_of_ne (by omega)]; exact henable i h1 (by omega)]
      exact items_shift regs (by omega) hk hmove.1 hmove.2
    · have hstep : shiftReg (k + 1) (busy, enable) = (busy, enable) := by
        simp only [shiftReg, Nat.add_sub_cancel]
        rw [if_neg]
        simpa using hmove
      rw [hstep]
      simp only [henable (k + 1) (by omega) (by omega), Bool.false_eq_true, if_false]
      exact ih (by omega) busy enable regs fun i h1 h2 => henable i h1 (by omega)

namespace State
variable {c : Config}

/-- A put of a thread that has not entered the first register. -/
def putPending (c : Config) (s : State T) : Bool := c.cthreadPut && s.push c

/-- The undelivered items: the output slot, the busy registers and the pending put. -/
def content (c : Config) (s : State T) : List T :=
  (if s.slotFull c then [s.dataRegD] else []) ++ items s.busyRegD s.regs c.regNum ++
    (if s.putPending c then [s.dataIn] else [])

structure Inv (c : Config) (s : State T) : Prop where
  dataOut : s.dataOut = s.regs (c.regNum - 1)
  putWaiting : s.putWaiting.isSome → c.cthreadPut
  getWaiting : s.getWaiting → c.cthreadGet

theorem Inv.resume_put {s : State T} (h : s.Inv c) (hm : c.cthreadPut = false) (calls : Calls T) :
    (calls.resume s.putWaiting s.getWaiting).put = calls.put := by
  cases hw : s.putWaiting with
  | none => rfl
  | some data => simp [h.putWaiting (by simp [hw])] at hm

theorem Inv.resume_get {s : State T} (h : s.Inv c) (hm : c.cthreadGet = false) (calls : Calls T) :
    (calls.resume s.putWaiting s.getWaiting).get = calls.get := by
  cases hw : s.getWaiting with
  | false => rfl
  | true => simp [h.getWaiting hw] at hm

/-- METHOD sides call in every cycle. -/
def allowed (c : Config) (s : State T) (calls : Calls T) : Bool :=
  (c.cthreadPut || calls.put.drives s.putReq) && (c.cthreadGet || calls.get.drives s.getReq)

/-- What `asyncProc` makes of the output slot and the registers. -/
theorem slot_items {s : State T} (h : s.Inv c) :
    (if s.slotFull c then [s.dataRegD] else []) ++ items s.busyRegD s.regs c.regNum =
      (if (if s.slotTakes c then true else s.slotFull c) then
        [if s.slotTakes c then s.dataOut else s.dataRegD] else []) ++
      items (s.closedUp c).1
        (downTo (moveReg (s.closedUp c).2) (c.regNum - 1) s.regs) c.regNum := by
  have hpos := c.regNum_pos
  rw [closedUp, items_closeUp (by omega) _ _ _ fun _ _ _ => rfl]
  cases ht : s.slotTakes c with
  | false => simp
  | true =>
    have hfree : s.slotFull c = false ∧ s.busyRegD (c.regNum - 1) = true := by
      simpa [slotTakes] using ht
    rw [items_take s.regs hpos hfree.2, h.dataOut]
    simp [hfree.1]

/-- The signals of a cycle. -/
structure Settled (c : Config) (s t : State T) (calls : Calls T) : Prop where
  readyPush : t.readyPush = !(s.closedUp c).1 0
  outValid : t.outValid = if s.slotTakes c then true else s.slotFull c
  dataReg : t.dataReg = if s.slotTakes c then s.dataOut else s.dataRegD
  busyReg : t.busyReg =
    if t.push c && t.readyPush then Function.update (s.closedUp c).1 0 true
    else (s.closedUp c).1
  enable : t.enable =
    if t.push c && t.readyPush then Function.update (s.closedUp c).2 0 true
    else (s.closedUp c).2
  regFull : t.regFull = if !c.cthreadGet && t.pop c then false else t.outValid
  putPending : t.putPending c = s.putPending c
  putReq : c.cthreadPut = false → t.push c = (calls.put.stored t.readyPush).isSome
  threadData : c.cthreadPut = true → t.dataIn = s.dataIn
  dataIn : c.cthreadPut = false → ∀ data, calls.put.stored t.readyPush = some data →
    t.dataIn = data
  getReq : c.cthreadGet = false → t.pop c = calls.get.taken t.outValid
  putWaits : c.cthreadPut = false → calls.put.waits t.readyPush = none
  getWaits : c.cthreadGet = false → calls.get.waits t.outValid = false

section
variable [Inhabited T]

/-- What the requests of METHODs cannot change. -/
theorem settle_closedUp (calls : Calls T) (s : State T) :
    (methods c calls (asyncProc c s)).slotFull c = s.slotFull c ∧
    (methods c calls (asyncProc c s)).slotTakes c = s.slotTakes c ∧
    (methods c calls (asyncProc c s)).closedUp c = s.closedUp c := by
  have hfull : (methods c calls (asyncProc c s)).slotFull c = s.slotFull c := by
    cases hm : c.cthreadGet <;> simp [slotFull, pop, methods, asyncProc, hm]
  have htakes : (methods c calls (asyncProc c s)).slotTakes c = s.slotTakes c := by
    rw [slotTakes, hfull]
    rfl
  refine ⟨hfull, htakes, ?_⟩
  rw [closedUp, htakes]
  rfl


theorem settle_settled {s : State T} (h : s.Inv c) {calls : Calls T} (hok : s.allowed c calls) :
    Settled c s (settle c calls s) (calls.resume s.putWaiting s.getWaiting) := by
  obtain ⟨hfull, htakes, hclosed⟩ := settle_closedUp (c := c) calls s
  have hready : (settle c calls s).readyPush = !(s.closedUp c).1 0 := by
    rw [settle, asyncProc, hclosed]
  have hvalid : (settle c calls s).outValid = if s.slotTakes c then true else s.slotFull c := by
    rw [settle, asyncProc, htakes, hfull]
  have hputReq : c.cthreadPut = false →
      (settle c calls s).push c = calls.put.methodReq (!(s.closedUp c).1 0) s.putReq := by
    intro hm
    simp [settle, push, methods, hm, asyncProc]
  have hgetReq : c.cthreadGet = false → (settle c calls s).pop c =
      calls.get.methodReq (if s.slotTakes c then true else s.slotFull c) s.getReq := by
    intro hm
    simp [settle, pop, methods, hm, asyncProc]
  simp only [allowed, Bool.and_eq_true, Bool.or_eq_true] at hok
  constructor
  · exact hready
  · exact hvalid
  · rw [settle, asyncProc, htakes]
    rfl
  · rw [hready, settle, asyncProc, hclosed]
    rfl
  · rw [hready, settle, asyncProc, hclosed]
    rfl
  · rw [hvalid, settle, asyncProc, htakes, hfull]
    rfl
  · cases hm : c.cthreadPut <;> simp [putPending, push, settle, methods, asyncProc, hm]
  · intro hm
    have hd := hok.1.resolve_left (by simp [hm])
    rw [h.resume_put hm, hputReq hm, hready, PutCall.methodReq_of_drives hd]
  · intro hm
    simp [settle, methods, asyncProc, hm]
  · intro hm data hdata
    have hd := hok.1.resolve_left (by simp [hm])
    rw [h.resume_put hm, hready] at hdata
    have hin : (settle c calls s).dataIn =
        calls.put.requestData (!(s.closedUp c).1 0) s.dataIn := by
      simp [settle, methods, asyncProc, hm]
    rw [hin]
    exact PutCall.requestData_of_stored hd hdata _
  · intro hm
    have hd := hok.2.resolve_left (by simp [hm])
    rw [h.resume_get hm, hgetReq hm, hvalid, GetCall.methodReq_of_drives hd]
  · intro hm
    rw [h.resume_put hm, PutCall.waits_of_drives (hok.1.resolve_left (by simp [hm]))]
  · intro hm
    rw [h.resume_get hm, GetCall.waits_of_drives (hok.2.resolve_left (by simp [hm]))]

end

theorem edge_putPending (calls : Calls T) (t : State T) (hm : c.cthreadPut = true) :
    (edge c calls t).putPending c =
      if t.readyPush then
        ((calls.resume t.putWaiting t.getWaiting).put.stored t.readyPush).isSome
      else t.putPending c := by
  have hbne := PutCall.threadReq_bne (calls.resume t.putWaiting t.getWaiting).put
    t.readyPush t.putReq
  have hedge : (edge c calls t).putPending c =
      ((calls.resume t.putWaiting t.getWaiting).put.threadReq t.readyPush t.putReq !=
        if t.readyPush then t.putReq else t.putReqD) := by
    simp [putPending, push, edge, syncProc, hm]
  rw [hedge]
  cases hr : t.readyPush with
  | true =>
    rw [hr] at hbne
    simpa using hbne
  | false =>
    simp [putPending, push, hm]

/-- The put that enters the first register and the one left pending. -/
theorem edge_put {s t : State T} (calls : Calls T)
    (hs : Settled c s t (calls.resume t.putWaiting t.getWaiting)) :
    (if s.putPending c then [s.dataIn] else []) ++
        ((calls.resume t.putWaiting t.getWaiting).put.stored t.readyPush).toList =
      (if t.push c && t.readyPush then [t.dataIn] else []) ++
        (if (edge c calls t).putPending c then [(edge c calls t).dataIn] else []) := by
  have hpend := hs.putPending
  generalize hresumed : calls.resume t.putWaiting t.getWaiting = resumed at hs
  cases hm : c.cthreadPut with
  | true =>
    have hpush : t.push c = s.putPending c := by
      rw [← hpend, putPending, hm, Bool.true_and]
    have hin : (edge c calls t).dataIn = resumed.put.keptData t.readyPush t.dataIn := by
      simp [edge, hm, hresumed]
    rw [edge_putPending calls t hm, hresumed, hpush, hin, hs.threadData hm, hpend]
    cases hr : t.readyPush with
    | false => simp [PutCall.keptData_false]
    | true =>
      cases hstored : resumed.put.stored true with
      | none => simp
      | some data => simp [PutCall.keptData_of_stored hstored]
  | false =>
    have hnone : s.putPending c = false ∧ (edge c calls t).putPending c = false := by
      simp [putPending, hm]
    have hpush := hs.putReq hm
    have hdata := hs.dataIn hm
    rw [hpush, hnone.1, hnone.2]
    cases hstored : resumed.put.stored t.readyPush with
    | none => simp
    | some data =>
      have hready : t.readyPush = true := by
        by_contra hnot
        simp [Bool.eq_false_iff.mpr hnot] at hstored
      simp [hready, hdata data hstored]

theorem edge_slotFull {s t : State T} (calls : Calls T)
    (hs : Settled c s t (calls.resume t.putWaiting t.getWaiting)) :
    (edge c calls t).slotFull c =
      (t.outValid && !(calls.resume t.putWaiting t.getWaiting).get.taken t.outValid) := by
  have hbne := GetCall.threadReq_bne (calls.resume t.putWaiting t.getWaiting).get
    t.outValid t.getReq
  have hfull := hs.regFull
  have hedge : (edge c calls t).regFullD = t.regFull := rfl
  cases hm : c.cthreadGet with
  | true =>
    have hpop : (edge c calls t).pop c =
        (calls.resume t.putWaiting t.getWaiting).get.taken t.outValid := by
      rw [← hbne]
      simp [pop, edge, syncProc, hm]
    rw [slotFull, hpop, hedge, hfull, hm]
    cases (calls.resume t.putWaiting t.getWaiting).get.taken t.outValid <;> simp
  | false =>
    rw [slotFull, hedge, hfull, hm, hs.getReq hm]
    cases (calls.resume t.putWaiting t.getWaiting).get.taken t.outValid <;> simp

theorem edge_items {s t : State T} (calls : Calls T) {resumed : Calls T}
    (hs : Settled c s t resumed) (hregs : t.regs = s.regs) :
    items (edge c calls t).busyRegD (edge c calls t).regs c.regNum =
      items (s.closedUp c).1
          (downTo (moveReg (s.closedUp c).2) (c.regNum - 1) s.regs) c.regNum ++
        (if t.push c && t.readyPush then [t.dataIn] else []) := by
  have hbusy : (edge c calls t).busyRegD = t.busyReg := rfl
  have hedge : (edge c calls t).regs = t.plProc c := rfl
  have hzero : (s.closedUp c).2 0 = false :=
    downTo_shiftReg_enable _ _ 0 (.inl rfl)
  rw [hbusy, hedge, plProc, hregs, hs.busyReg, hs.enable]
  cases henter : t.push c && t.readyPush with
  | false => simp [hzero]
  | true =>
    have hfree : (s.closedUp c).1 0 = false := by
      have hr := (Bool.and_eq_true_iff.mp henter).2
      simpa [hs.readyPush] using hr
    have hloop : downTo (moveReg (Function.update (s.closedUp c).2 0 true)) (c.regNum - 1) s.regs =
        downTo (moveReg (s.closedUp c).2) (c.regNum - 1) s.regs := by
      apply downTo_congr
      intro i h1 _
      funext regs
      simp [moveReg, Function.update_of_ne (show i ≠ 0 by omega)]
    simp only [if_true, Function.update_self, hloop]
    exact items_enter _ _ c.regNum_pos hfree

theorem step_law [Inhabited T] {s : State T} (h : s.Inv c) {calls : Calls T}
    (hok : s.allowed c calls) :
    s.content c ++ ports.accepted ((machine T c).step s calls).2 =
      ports.delivered ((machine T c).step s calls).2 ++
        ((machine T c).step s calls).1.content c := by
  have hs := settle_settled h hok
  have hput := edge_put calls hs
  have hslot := edge_slotFull calls hs
  have hitems := edge_items calls hs rfl
  change s.content c ++ ((calls.resume s.putWaiting s.getWaiting).put.stored
      (settle c calls s).readyPush).toList =
    (if (calls.resume s.putWaiting s.getWaiting).get.taken (settle c calls s).outValid
      then some (settle c calls s).dataReg else none).toList ++
      (edge c calls (settle c calls s)).content c
  have hdel : (if (settle c calls s).outValid then [(settle c calls s).dataReg] else []) =
      (if (calls.resume s.putWaiting s.getWaiting).get.taken (settle c calls s).outValid
        then some (settle c calls s).dataReg else none).toList ++
      (if (edge c calls (settle c calls s)).slotFull c then [(settle c calls s).dataReg]
        else []) := by
    rw [hslot]
    have hw : (calls.resume (settle c calls s).putWaiting (settle c calls s).getWaiting) =
        calls.resume s.putWaiting s.getWaiting := rfl
    rw [hw]
    cases hv : (settle c calls s).outValid with
    | false => simp
    | true => cases (calls.resume s.putWaiting s.getWaiting).get.taken true <;> simp
  have hreg : (edge c calls (settle c calls s)).dataRegD = (settle c calls s).dataReg := rfl
  calc s.content c ++ ((calls.resume s.putWaiting s.getWaiting).put.stored
          (settle c calls s).readyPush).toList
      = ((if s.slotFull c then [s.dataRegD] else []) ++ items s.busyRegD s.regs c.regNum) ++
          ((if s.putPending c then [s.dataIn] else []) ++
            ((calls.resume s.putWaiting s.getWaiting).put.stored
              (settle c calls s).readyPush).toList) := by
        rw [content, List.append_assoc]
    _ = ((if (settle c calls s).outValid then [(settle c calls s).dataReg] else []) ++
          items (s.closedUp c).1
            (downTo (moveReg (s.closedUp c).2) (c.regNum - 1) s.regs) c.regNum) ++
          ((if (settle c calls s).push c && (settle c calls s).readyPush then
              [(settle c calls s).dataIn] else []) ++
            (if (edge c calls (settle c calls s)).putPending c then
              [(edge c calls (settle c calls s)).dataIn] else [])) := by
        rw [slot_items h, ← hs.outValid, ← hs.dataReg, ← hput]
        rfl
    _ = _ := by
        rw [hdel, content, hitems, hreg]
        simp only [List.append_assoc]

theorem step_inv [Inhabited T] {s : State T} (h : s.Inv c) (calls : Calls T) :
    ((machine T c).step s calls).1.Inv c := by
  refine ⟨rfl, ?_, ?_⟩
  · have hedge : ((machine T c).step s calls).1.putWaiting =
        if c.cthreadPut then (calls.resume s.putWaiting s.getWaiting).put.waits
          (settle c calls s).readyPush
        else s.putWaiting := rfl
    rw [hedge]
    intro hw
    split at hw
    · assumption
    · exact h.putWaiting hw
  · have hedge : ((machine T c).step s calls).1.getWaiting =
        if c.cthreadGet then (calls.resume s.putWaiting s.getWaiting).get.waits
          (settle c calls s).outValid
        else s.getWaiting := rfl
    rw [hedge]
    intro hw
    split at hw
    · assumption
    · exact h.getWaiting hw

def queueLaw (T : Type) [Inhabited T] (c : Config) :
    QueueLaw (machine T c) ports (fun s calls => s.allowed c calls) where
  Inv s := s.Inv c
  content s := s.content c
  inv _ calls h _ := step_inv h calls
  law _ _ h hok := step_law h hok

theorem reset_inv [Inhabited T] (s : State T) : (s.reset c).Inv c where
  dataOut := by
    have := c.regNum_pos
    simp [reset]
    omega
  putWaiting hw := by cases hw
  getWaiting hw := by cases hw

theorem items_of_free {busy : Nat → Bool} (regs : Nat → T) {n : Nat}
    (h : ∀ i < n, busy i = false) : items busy regs n = [] := by
  induction n with
  | zero => rfl
  | succ n ih => simp [items, h n (by omega), ih fun i hi => h i (by omega)]

theorem reset_content [Inhabited T] (s : State T) : (s.reset c).content c = [] := by
  have hslot : (s.reset c).slotFull c = false := by simp [slotFull, reset]
  have hput : (s.reset c).putPending c = false := by
    cases hm : c.cthreadPut <;> simp [putPending, push, reset, hm]
  have hitems : items (s.reset c).busyRegD (s.reset c).regs c.regNum = [] := by
    apply items_of_free
    intro i hi
    simp [reset, hi]
  rw [content, hslot, hput, hitems]
  rfl

/-- The registered busy bits are the bits of the cycle before the edge. -/
theorem run_busyReg [Inhabited T] (s : State T) {calls : List (Calls T)} (hne : calls ≠ []) :
    ((machine T c).run s calls).busyRegD = ((machine T c).run s calls).busyReg := by
  obtain ⟨init, last, rfl⟩ := List.eq_nil_or_concat calls |>.resolve_left hne
  have hrun := (machine T c).run_concat s init last
  rw [List.concat_eq_append, hrun]
  rfl

/-- What was put and not yet got is, in order, in the output slot, in the
registers whose busy bit is set and in the pending put, and nowhere else. -/
theorem pipe_order_preserving [Inhabited T] (c : Config) (s : State T) {calls : List (Calls T)}
    (hok : (machine T c).EveryStep (fun s calls => s.allowed c calls) (s.reset c) calls) :
    let returned := (machine T c).outputs (s.reset c) calls
    let final := (machine T c).run (s.reset c) calls
    returned.flatMap ports.delivered <+: returned.flatMap ports.accepted ∧
    returned.flatMap ports.accepted = returned.flatMap ports.delivered ++
      ((if final.slotFull c then [final.dataRegD] else []) ++
        items final.busyRegD final.regs c.regNum ++
        (if final.putPending c then [final.dataIn] else [])) ∧
    (calls ≠ [] → final.busyRegD = final.busyReg) :=
  ⟨(queueLaw T c).delivered_leads (reset_inv s) (reset_content s) hok,
    (queueLaw T c).accepted_eq (reset_inv s) (reset_content s) hok,
    fun hne => run_busyReg (s.reset c) hne⟩

/-- A full pipe of two registers between a thread and a METHOD. -/
theorem pipe_order_preserving_full :
    let c : Config :=
      { regNum := 2, regNum_pos := by decide, cthreadPut := true, cthreadGet := false }
    let calls : List (Calls Nat) :=
      [⟨.put 1, .clearGet⟩, ⟨.bPut 2, .clearGet⟩, ⟨.put 3, .clearGet⟩, ⟨.put 4, .clearGet⟩,
       ⟨.put 5, .clearGet⟩, ⟨.idle, .get⟩, ⟨.idle, .getEnable true⟩, ⟨.put 6, .getEnable false⟩]
    let returned := (machine Nat c).outputs (reset c default) calls
    returned.flatMap ports.accepted = [1, 2, 3, 4, 6] ∧ returned.flatMap ports.delivered = [1, 2] ∧
      returned.flatMap ports.delivered <+: returned.flatMap ports.accepted := by
  intro c calls returned
  have hok : (machine Nat c).EveryStep (fun s calls => s.allowed c calls) (reset c default) calls :=
    ⟨rfl, rfl, rfl, rfl, rfl, rfl, rfl, rfl, trivial⟩
  exact ⟨by decide, by decide, (pipe_order_preserving c default hok).1⟩

/-- A METHOD put side that makes no call puts its item again. -/
theorem idle_method_enters_again :
    let c : Config :=
      { regNum := 1, regNum_pos := by decide, cthreadPut := false, cthreadGet := true }
    let calls : List (Calls Nat) :=
      [⟨.put 5, .get⟩, ⟨.idle, .get⟩, ⟨.idle, .get⟩, ⟨.idle, .get⟩]
    let returned := (machine Nat c).outputs (reset c default) calls
    returned.flatMap ports.accepted = [5] ∧ returned.flatMap ports.delivered = [5, 5, 5] ∧
      ¬ returned.flatMap ports.delivered <+: returned.flatMap ports.accepted := by
  decide

end State
end SystemcCompiler.Pipe
