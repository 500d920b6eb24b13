import Mathlib.Algebra.Group.Nat.Defs
import SystemcCompiler.Library.Channel
import SystemcCompiler.Library.Ring
import SystemcCompiler.Library.Schedule

/-! `sct_prim_buffer`, the buffer of loosely timed mode: any number of puts and gets
of a delta cycle work on the same element number, which `update()` brings up to date. -/
namespace SystemcCompiler.PrimBuffer
open Channel Schedule

structure Config where
  size : Nat
  multiPut : Bool
  multiGet : Bool
  /-- The assertion of the constructor, on the 16 bit size. -/
  size_ok : 1 < size % 2 ^ 16

def Config.bufSize (c : Config) : Nat := c.size % 2 ^ 16

/-- The queries both processes may make. -/
inductive Count where
  | elemNum
  | almostFull (n : Nat)
  | almostEmpty (n : Nat)
  deriving DecidableEq

inductive PutCall (T : Type) where
  | count (query : Count)
  | ready
  | put (data : T)
  | putMask (data : T) (mask : Bool)
  | bPut (data : T)
  deriving DecidableEq

inductive GetCall where
  | count (query : Count)
  | request
  | peek
  | get
  | getEnable (enable : Bool)
  | bGet
  deriving DecidableEq

inductive PutResult where
  | count (n : Nat)
  | flag (value : Bool)
  | done
  /-- The process waits inside `b_put`. -/
  | waits
  | assertion
  deriving DecidableEq

inductive GetResult (T : Type) where
  | count (n : Nat)
  | flag (value : Bool)
  | peeked (data : T)
  /-- The data returned, and whether the get took a request. -/
  | got (data : T) (taken : Bool)
  | waits
  | assertion
  deriving DecidableEq

structure State (T : Type) where
  popIndx : Nat
  getNum : Nat
  pushIndx : Nat
  putNum : Nat
  elementNum : Nat
  buffer : Nat → T
  /-- Notified for the next clock period. -/
  putEvent : Bool
  getEvent : Bool

variable {T : Type}

def Config.nextIndx (c : Config) (i : Nat) : Nat :=
  if i = c.bufSize - 1 then 0 else (i + 1) % 2 ^ 16

namespace State
variable (c : Config)

def ready (s : State T) : Bool :=
  decide ((if c.multiPut then s.putNum else 0) < c.bufSize - s.elementNum)

def request (s : State T) : Bool :=
  decide ((if c.multiGet then s.getNum else 0) < s.elementNum)

def peek (s : State T) : T := s.buffer s.popIndx

def resetGet (s : State T) : State T := { s with popIndx := 0, getNum := 0 }

def resetPut [Inhabited T] (s : State T) : State T :=
  { s with
    pushIndx := 0
    elementNum := 0
    putNum := 0
    buffer := Function.update s.buffer 0 default }

def doGet (s : State T) : State T :=
  let first := decide (s.getNum = 0)
  { s with
    popIndx := if c.multiGet then c.nextIndx s.popIndx else s.popIndx
    putEvent := s.putEvent || (c.multiPut && decide (s.elementNum ≤ s.getNum + 2)) ||
      (first && !c.multiPut && decide (s.elementNum = c.bufSize))
    getEvent := s.getEvent || (first && !c.multiGet) || (first && c.multiPut && c.multiGet)
    getNum := if c.multiGet then (s.getNum + 1) % 2 ^ 16 else 1 }

def doPut (data : T) (s : State T) : State T :=
  let first := decide (s.putNum = 0)
  { s with
    buffer := Function.update s.buffer s.pushIndx data
    pushIndx := if c.multiPut then c.nextIndx s.pushIndx else s.pushIndx
    getEvent := s.getEvent ||
      (c.multiGet && decide (c.bufSize ≤ s.elementNum + s.putNum + 2)) ||
      (first && !c.multiGet && decide (s.elementNum = 0))
    putEvent := s.putEvent || (first && !c.multiPut) || (first && c.multiPut && c.multiGet)
    putNum := if c.multiPut then (s.putNum + 1) % 2 ^ 16 else 1 }

/-- The end of a delta cycle; without a request to update both numbers are zero. -/
def update (s : State T) : State T :=
  { s with
    popIndx := if !c.multiGet && s.getNum != 0 then c.nextIndx s.popIndx else s.popIndx
    pushIndx := if !c.multiPut && s.putNum != 0 then c.nextIndx s.pushIndx else s.pushIndx
    elementNum := ((s.elementNum + 2 ^ 16 - s.getNum) % 2 ^ 16 + s.putNum) % 2 ^ 16
    getNum := 0
    putNum := 0 }

def count (query : Count) (s : State T) : Nat :=
  match query with
  | .elemNum => s.elementNum
  | .almostFull n => (decide ((c.bufSize + 2 ^ 32 - n) % 2 ^ 32 ≤ s.elementNum)).toNat
  | .almostEmpty n => (decide (s.elementNum ≤ n)).toNat

def putStep (s : State T) (call : PutCall T) : State T × PutCall T × PutResult :=
  match call with
  | .count query => (s, call, .count (s.count c query))
  | .ready => (s, call, .flag (s.ready c))
  | .put data => if s.ready c then (s.doPut c data, call, .flag true) else (s, call, .flag false)
  | .putMask data mask =>
    if mask && s.ready c then (s.doPut c data, call, .flag true) else (s, call, .flag false)
  | .bPut data =>
    if c.multiPut then (s, call, .assertion)
    else if s.elementNum = c.bufSize then (s, call, .waits)
    else (s.doPut c data, call, .done)

def getStep (s : State T) (call : GetCall) : State T × GetCall × GetResult T :=
  match call with
  | .count query => (s, call, .count (s.count c query))
  | .request => (s, call, .flag (s.request c))
  | .peek => (s, call, .peeked s.peek)
  | .get => (if s.request c then s.doGet c else s, call, .got s.peek (s.request c))
  | .getEnable enable =>
    (if enable && s.request c then s.doGet c else s, call, .got s.peek (enable && s.request c))
  | .bGet =>
    if c.multiGet then (s, call, .assertion)
    else if s.elementNum = 0 then (s, call, .waits)
    else (s.doGet c, call, .got (s.doGet c).peek true)

end State

/-- What a delta cycle gives back to each process, and the events it notified. -/
structure Results (T : Type) where
  puts : List (PutCall T × PutResult)
  gets : List (GetCall × GetResult T)
  putEvent : Bool
  getEvent : Bool
  deriving DecidableEq

/-- The calls of a delta cycle, in the order they are made. -/
abbrev Delta (T : Type) := List (PutCall T ⊕ GetCall)

def State.delta (c : Config) (s : State T) (turns : Delta T) : State T × Results T :=
  let start := { s with putEvent := false, getEvent := false }
  let (last, puts, gets) := run (State.putStep c) (State.getStep c) start turns
  (last.update c, ⟨puts, gets, last.putEvent, last.getEvent⟩)

def machine (T : Type) (c : Config) : Mealy (Delta T) (Results T) where
  State := State T
  step s turns := s.delta c turns

/-- After the reset calls of both processes and the end of their delta cycle. -/
def State.reset [Inhabited T] (c : Config) (s : State T) : State T :=
  s.resetGet.resetPut.update c

/-- The data of a put that went through. -/
def stored : PutCall T × PutResult → Option T
  | (.put data, .flag true) => some data
  | (.putMask data _, .flag true) => some data
  | (.bPut data, .done) => some data
  | _ => none

/-- The data of a get that took a request. -/
def taken : GetCall × GetResult T → Option T
  | (_, .got data true) => some data
  | _ => none

def ports : Ports (Results T) T where
  accepted r := r.puts.filterMap stored
  delivered r := r.gets.filterMap taken

/-- A call that puts when there is room. -/
def PutCall.requests : PutCall T → Bool
  | .put _ | .bPut _ => true
  | .putMask _ mask => mask
  | .count _ | .ready => false

def GetCall.requests : GetCall → Bool
  | .get | .bGet => true
  | .getEnable enable => enable
  | .count _ | .request | .peek => false

/-- What the setting allows: one put or get in a delta cycle without the multiple
one, and the blocking calls only there. -/
def Config.putsAllowed (c : Config) (calls : List (PutCall T)) : Bool :=
  if c.multiPut then calls.all fun call => match call with | .bPut _ => false | _ => true
  else decide (calls.countP PutCall.requests ≤ 1)

def Config.getsAllowed (c : Config) (calls : List GetCall) : Bool :=
  if c.multiGet then calls.all fun call => match call with | .bGet => false | _ => true
  else decide (calls.countP GetCall.requests ≤ 1)

def Config.allowed (c : Config) (turns : Delta T) : Bool :=
  c.putsAllowed (lefts turns) && c.getsAllowed (rights turns)

/-- The elements of the buffer between delta cycles, oldest first. -/
def State.content (c : Config) (s : State T) : List T :=
  Ring.contents c.bufSize s.buffer s.popIndx s.elementNum

structure State.Inv (c : Config) (s : State T) : Prop where
  popIndx_lt : s.popIndx < c.bufSize
  pushIndx_eq : s.pushIndx = (s.popIndx + s.elementNum) % c.bufSize
  room : s.elementNum ≤ c.bufSize
  getNum : s.getNum = 0
  putNum : s.putNum = 0

theorem Config.bufSize_lt (c : Config) : c.bufSize < 2 ^ 16 := Nat.mod_lt _ (by decide)

theorem Config.bufSize_le (c : Config) : c.bufSize ≤ c.size := Nat.mod_le _ _

theorem Config.nextIndx_eq (c : Config) (i : Nat) :
    c.nextIndx (i % c.bufSize) = (i + 1) % c.bufSize := by
  have hpos : 0 < c.bufSize := Nat.lt_trans Nat.zero_lt_one c.size_ok
  have hlt := c.bufSize_lt
  have hi : i % c.bufSize < c.bufSize := Nat.mod_lt _ hpos
  rw [← Nat.mod_add_mod, ← Ring.next_eq hi, nextIndx]
  split
  · rfl
  · exact Nat.mod_eq_of_lt (by omega)

/-- An index that moves with each call, or by at most one call in `update()`. -/
theorem Config.moved_eq {c : Config} {multi : Bool} {indx start num : Nat}
    (h : indx = (start + if multi then num else 0) % c.bufSize)
    (honce : multi = false → num ≤ 1) :
    (if !multi && num != 0 then c.nextIndx indx else indx) = (start + num) % c.bufSize := by
  cases multi with
  | true => simpa using h
  | false =>
    have hnum := honce rfl
    rw [h]
    rcases Nat.le_one_iff_eq_zero_or_eq_one.mp hnum with hz | ho
    · simp [hz]
    · simp [ho, Config.nextIndx_eq]

/-- A put call puts when it requests and there is room, and else changes nothing. -/
theorem State.putStep_cases (c : Config) {s : State T} (call : PutCall T)
    (hroom : s.elementNum ≤ c.bufSize) (hallowed : c.putsAllowed [call]) :
    (∃ data, call.requests ∧ s.ready c ∧ (s.putStep c call).1 = s.doPut c data ∧
        stored (s.putStep c call).2 = some data) ∨
      (!(call.requests && s.ready c)) ∧ (s.putStep c call).1 = s ∧
        stored (s.putStep c call).2 = none := by
  cases call with
  | count query => exact .inr ⟨rfl, rfl, rfl⟩
  | ready => exact .inr ⟨rfl, rfl, rfl⟩
  | put data =>
    cases hr : s.ready c with
    | true => exact .inl ⟨data, by simp [PutCall.requests, putStep, stored, hr]⟩
    | false => right; simp [PutCall.requests, putStep, stored, hr]
  | putMask data mask =>
    cases hr : s.ready c <;> cases mask
    case true.true => exact .inl ⟨data, by simp [PutCall.requests, putStep, stored, hr]⟩
    all_goals right; simp [PutCall.requests, putStep, stored, hr]
  | bPut data =>
    have hsingle : c.multiPut = false := by
      cases hm : c.multiPut with
      | true => simp [Config.putsAllowed, hm] at hallowed
      | false => rfl
    have hr : s.ready c = decide (s.elementNum ≠ c.bufSize) := by
      rw [ready, hsingle, decide_eq_decide]
      simp only [Bool.false_eq_true, if_false]
      omega
    by_cases hfull : s.elementNum = c.bufSize
    · right
      simp [PutCall.requests, putStep, stored, hr, hfull, hsingle]
    · exact .inl ⟨data, by simp [PutCall.requests, putStep, stored, hr, hfull, hsingle]⟩

theorem State.getStep_cases (c : Config) {s : State T} (call : GetCall)
    (hallowed : c.getsAllowed [call]) :
    (call.requests ∧ s.request c ∧ (s.getStep c call).1 = s.doGet c ∧
        taken (s.getStep c call).2 = some s.peek) ∨
      (!(call.requests && s.request c)) ∧ (s.getStep c call).1 = s ∧
        taken (s.getStep c call).2 = none := by
  cases call with
  | count query => exact .inr ⟨rfl, rfl, rfl⟩
  | request => exact .inr ⟨rfl, rfl, rfl⟩
  | peek => exact .inr ⟨rfl, rfl, rfl⟩
  | get =>
    cases hr : s.request c with
    | true => left; simp [GetCall.requests, getStep, taken, hr]
    | false => right; simp [GetCall.requests, getStep, taken, hr]
  | getEnable enable =>
    cases hr : s.request c <;> cases enable
    case true.true => left; simp [GetCall.requests, getStep, taken, hr]
    all_goals right; simp [GetCall.requests, getStep, taken, hr]
  | bGet =>
    have hsingle : c.multiGet = false := by
      cases hm : c.multiGet with
      | true => simp [Config.getsAllowed, hm] at hallowed
      | false => rfl
    have hr : s.request c = decide (s.elementNum ≠ 0) := by
      rw [request, hsingle, decide_eq_decide]
      simp only [Bool.false_eq_true, if_false]
      omega
    by_cases hempty : s.elementNum = 0
    · right
      simp [GetCall.requests, getStep, taken, hr, hempty, hsingle]
    · left
      simp [GetCall.requests, getStep, taken, hr, hempty, hsingle, doGet, peek]

theorem Config.putsAllowed_cons {c : Config} {call : PutCall T} {calls : List (PutCall T)}
    (h : c.putsAllowed (call :: calls)) : c.putsAllowed [call] ∧ c.putsAllowed calls := by
  unfold putsAllowed at h ⊢
  cases hm : c.multiPut with
  | true => simpa [hm] using h
  | false =>
    simp only [hm, Bool.false_eq_true, if_false, decide_eq_true_eq, List.countP_cons,
      List.countP_nil] at h ⊢
    omega

theorem Config.getsAllowed_cons {c : Config} {call : GetCall} {calls : List GetCall}
    (h : c.getsAllowed (call :: calls)) : c.getsAllowed [call] ∧ c.getsAllowed calls := by
  unfold getsAllowed at h ⊢
  cases hm : c.multiGet with
  | true => simpa [hm] using h
  | false =>
    simp only [hm, Bool.false_eq_true, if_false, decide_eq_true_eq, List.countP_cons,
      List.countP_nil] at h ⊢
    omega

/-- The state inside a delta cycle that began in `s₀`, after puts of `accepted` and
gets of `delivered`. -/
structure Progress (c : Config) (s₀ s : State T) (accepted delivered : List T) : Prop where
  elementNum : s.elementNum = s₀.elementNum
  room : s₀.elementNum + s.putNum ≤ c.bufSize
  have_num : s.getNum ≤ s₀.elementNum
  popIndx : s.popIndx = (s₀.popIndx + if c.multiGet then s.getNum else 0) % c.bufSize
  pushIndx : s.pushIndx =
    (s₀.popIndx + s₀.elementNum + if c.multiPut then s.putNum else 0) % c.bufSize
  contents_eq : Ring.contents c.bufSize s.buffer s₀.popIndx (s₀.elementNum + s.putNum) =
    s₀.content c ++ accepted
  delivered_eq : delivered = (s₀.content c).take s.getNum

/-- The calls that are still to come respect the setting. -/
structure CallsLeft (c : Config) (s : State T) (puts : List (PutCall T)) (gets : List GetCall) :
    Prop where
  putsAllowed : c.putsAllowed puts
  getsAllowed : c.getsAllowed gets
  putOnce : c.multiPut = false → s.putNum + puts.countP PutCall.requests ≤ 1
  getOnce : c.multiGet = false → s.getNum + gets.countP GetCall.requests ≤ 1

section
variable {c : Config} {s₀ s : State T} {accepted delivered : List T}

theorem Progress.start (h : s₀.Inv c) :
    Progress c s₀ { s₀ with putEvent := false, getEvent := false } [] [] := by
  refine ⟨rfl, ?_, ?_, ?_, ?_, ?_, ?_⟩ <;> simp only [h.getNum, h.putNum]
  · exact h.room
  · exact Nat.zero_le _
  · simp [Nat.mod_eq_of_lt h.popIndx_lt]
  · simpa using h.pushIndx_eq
  · simp [State.content]
  · simp

theorem CallsLeft.start {turns : Delta T} (h : s₀.Inv c) (hallowed : c.allowed turns) :
    CallsLeft c { s₀ with putEvent := false, getEvent := false } (lefts turns)
      (rights turns) := by
  obtain ⟨hputs, hgets⟩ := Bool.and_eq_true_iff.mp hallowed
  refine ⟨hputs, hgets, fun hm => ?_, fun hm => ?_⟩
  · simpa [h.putNum, Config.putsAllowed, hm] using hputs
  · simpa [h.getNum, Config.getsAllowed, hm] using hgets

/-- Room for one more put that the setting allows. -/
theorem Progress.room_of_ready (h : Progress c s₀ s accepted delivered) (hready : s.ready c)
    (honce : c.multiPut = false → s.putNum = 0) :
    s₀.elementNum + s.putNum + 1 ≤ c.bufSize := by
  have hr := of_decide_eq_true hready
  rw [h.elementNum] at hr
  cases hm : c.multiPut with
  | true => simp only [hm, if_true] at hr; omega
  | false => simp only [hm, Bool.false_eq_true, if_false] at hr; have := honce hm; omega

theorem Progress.doPut (h : Progress c s₀ s accepted delivered) (hinv : s₀.Inv c)
    (hready : s.ready c) (honce : c.multiPut = false → s.putNum = 0) (data : T) :
    Progress c s₀ (s.doPut c data) (accepted ++ [data]) delivered := by
  have hroom := h.room_of_ready hready honce
  have hlt := c.bufSize_lt
  have hnum : (s.doPut c data).putNum = s.putNum + 1 := by
    simp only [State.doPut]
    split
    · exact Nat.mod_eq_of_lt (by omega)
    · rw [honce (Bool.eq_false_iff.mpr ‹_›)]
  have hpush : s.pushIndx = (s₀.popIndx + (s₀.elementNum + s.putNum)) % c.bufSize := by
    rw [h.pushIndx, Nat.add_assoc]
    split
    · rfl
    · rw [honce (Bool.eq_false_iff.mpr ‹_›)]
  refine ⟨h.elementNum, ?_, h.have_num, h.popIndx, ?_, ?_, h.delivered_eq⟩
  · rw [hnum]
    exact hroom
  · rw [hnum]
    simp only [State.doPut]
    split
    · rename_i hm
      rw [h.pushIndx, hm, if_pos rfl, Config.nextIndx_eq, Nat.add_assoc]
    · rename_i hm
      rw [h.pushIndx, if_neg hm]
  · rw [hnum, ← List.append_assoc, ← h.contents_eq]
    simp only [State.doPut, hpush]
    exact Ring.contents_push _ _ hinv.popIndx_lt hroom

theorem Progress.have_of_request (h : Progress c s₀ s accepted delivered) (hreq : s.request c)
    (honce : c.multiGet = false → s.getNum = 0) : s.getNum < s₀.elementNum := by
  have hr := of_decide_eq_true hreq
  rw [h.elementNum] at hr
  cases hm : c.multiGet with
  | true => simpa only [hm, if_true] using hr
  | false => simp only [hm, Bool.false_eq_true, if_false] at hr; have := honce hm; omega

/-- A cell that held an element at the start of the delta cycle still holds it. -/
theorem Progress.held (h : Progress c s₀ s accepted delivered) {i : Nat}
    (hi : i < s₀.elementNum) :
    (s₀.content c)[i]? = some (s.buffer ((s₀.popIndx + i) % c.bufSize)) := by
  rw [← Ring.contents_get c.bufSize s.buffer s₀.popIndx (s₀.elementNum + s.putNum) i (by omega),
    h.contents_eq, List.getElem?_append_left (by simpa [State.content] using hi)]

theorem Progress.doGet (h : Progress c s₀ s accepted delivered) (hreq : s.request c)
    (honce : c.multiGet = false → s.getNum = 0) :
    Progress c s₀ (s.doGet c) accepted (delivered ++ [s.peek]) := by
  have hhave := h.have_of_request hreq honce
  have hlt := c.bufSize_lt
  have hnum : (s.doGet c).getNum = s.getNum + 1 := by
    simp only [State.doGet]
    split
    · have := h.room
      exact Nat.mod_eq_of_lt (by omega)
    · rw [honce (Bool.eq_false_iff.mpr ‹_›)]
  have hpop : s.popIndx = (s₀.popIndx + s.getNum) % c.bufSize := by
    rw [h.popIndx]
    split
    · rfl
    · rw [honce (Bool.eq_false_iff.mpr ‹_›)]
  refine ⟨h.elementNum, h.room, ?_, ?_, h.pushIndx, h.contents_eq, ?_⟩
  · rw [hnum]
    exact hhave
  · rw [hnum]
    simp only [State.doGet]
    split
    · rename_i hm
      rw [h.popIndx, hm, if_pos rfl, Config.nextIndx_eq, Nat.add_assoc]
    · rename_i hm
      rw [h.popIndx, if_neg hm]
  · rw [hnum, List.take_add_one, ← h.delivered_eq, h.held hhave, ← hpop]
    rfl

section
variable {puts : List (PutCall T)} {gets : List GetCall}

theorem CallsLeft.putOnce_zero {call : PutCall T} (h : CallsLeft c s (call :: puts) gets)
    (hreq : call.requests) (hm : c.multiPut = false) : s.putNum = 0 := by
  have := h.putOnce hm
  rw [List.countP_cons_of_pos hreq] at this
  omega

theorem CallsLeft.getOnce_zero {call : GetCall} (h : CallsLeft c s puts (call :: gets))
    (hreq : call.requests) (hm : c.multiGet = false) : s.getNum = 0 := by
  have := h.getOnce hm
  rw [List.countP_cons_of_pos hreq] at this
  omega

theorem CallsLeft.putStep {call : PutCall T} (h : CallsLeft c s (call :: puts) gets)
    (hroom : s.elementNum ≤ c.bufSize) : CallsLeft c (s.putStep c call).1 puts gets := by
  obtain ⟨hcall, hputs⟩ := Config.putsAllowed_cons h.putsAllowed
  rcases State.putStep_cases c call hroom hcall with ⟨data, hreq, -, hstep, -⟩ | ⟨-, hstep, -⟩
  · rw [hstep]
    refine ⟨hputs, h.getsAllowed, fun hm => ?_, h.getOnce⟩
    have := h.putOnce hm
    rw [List.countP_cons_of_pos hreq] at this
    simp only [State.doPut, hm, Bool.false_eq_true, if_false]
    omega
  · rw [hstep]
    refine ⟨hputs, h.getsAllowed, fun hm => ?_, h.getOnce⟩
    have := h.putOnce hm
    rw [List.countP_cons] at this
    omega

theorem CallsLeft.getStep {call : GetCall} (h : CallsLeft c s puts (call :: gets)) :
    CallsLeft c (s.getStep c call).1 puts gets := by
  obtain ⟨hcall, hgets⟩ := Config.getsAllowed_cons h.getsAllowed
  rcases @State.getStep_cases T c s call hcall with ⟨hreq, -, hstep, -⟩ | ⟨-, hstep, -⟩
  · rw [hstep]
    refine ⟨h.putsAllowed, hgets, h.putOnce, fun hm => ?_⟩
    have := h.getOnce hm
    rw [List.countP_cons_of_pos hreq] at this
    simp only [State.doGet, hm, Bool.false_eq_true, if_false]
    omega
  · rw [hstep]
    refine ⟨h.putsAllowed, hgets, h.putOnce, fun hm => ?_⟩
    have := h.getOnce hm
    rw [List.countP_cons] at this
    omega

theorem Progress.putStep {call : PutCall T} (h : Progress c s₀ s accepted delivered)
    (hinv : s₀.Inv c) (hleft : CallsLeft c s (call :: puts) gets) :
    Progress c s₀ (s.putStep c call).1 (accepted ++ (stored (s.putStep c call).2).toList)
      delivered := by
  have hroom : s.elementNum ≤ c.bufSize := h.elementNum ▸ hinv.room
  have hcall := (Config.putsAllowed_cons hleft.putsAllowed).1
  rcases State.putStep_cases c call hroom hcall with ⟨data, hreq, hready, hstep, hstored⟩ |
    ⟨-, hstep, hstored⟩
  · rw [hstep, hstored]
    exact h.doPut hinv hready (hleft.putOnce_zero hreq) data
  · rw [hstep, hstored]
    simpa using h

theorem Progress.getStep {call : GetCall} (h : Progress c s₀ s accepted delivered)
    (hleft : CallsLeft c s puts (call :: gets)) :
    Progress c s₀ (s.getStep c call).1 accepted
      (delivered ++ (taken (s.getStep c call).2).toList) := by
  have hcall := (Config.getsAllowed_cons hleft.getsAllowed).1
  rcases @State.getStep_cases T c s call hcall with ⟨hreq, hrequest, hstep, htaken⟩ |
    ⟨-, hstep, htaken⟩
  · rw [hstep, htaken]
    exact h.doGet hrequest (hleft.getOnce_zero hreq)
  · rw [hstep, htaken]
    simpa using h

end

/-- A whole delta cycle, in whatever order its calls are made. -/
theorem Progress.run {turns : Delta T} (hinv : s₀.Inv c) (hallowed : c.allowed turns) :
    let start := { s₀ with putEvent := false, getEvent := false }
    let done := Schedule.run (State.putStep c) (State.getStep c) start turns
    Progress c s₀ done.1 (done.2.1.filterMap stored)
        (done.2.2.filterMap taken) ∧
      CallsLeft c done.1 [] [] := by
  have h := @run_inv _ _ _ _ _ (State.putStep c) (State.getStep c)
    (fun s puts gets calls others =>
      Progress c s₀ s (puts.filterMap stored) (gets.filterMap taken) ∧
        CallsLeft c s calls others)
    (fun {s os us i calls others} ⟨hp, hl⟩ => by
      have hroom : s.elementNum ≤ c.bufSize := hp.elementNum ▸ hinv.room
      refine ⟨?_, hl.putStep hroom⟩
      rw [List.filterMap_append, List.filterMap_cons]
      have := hp.putStep hinv hl
      revert this
      cases stored (s.putStep c i).2 <;> exact id)
    (fun {s os us k calls others} ⟨hp, hl⟩ => by
      refine ⟨?_, hl.getStep⟩
      rw [List.filterMap_append, List.filterMap_cons]
      have := hp.getStep hl
      revert this
      cases taken (s.getStep c k).2 <;> exact id)
    { s₀ with putEvent := false, getEvent := false } [] [] turns
    ⟨Progress.start hinv, CallsLeft.start hinv hallowed⟩
  simpa using h

/-- `update()` turns the progress of a delta cycle into the next element number. -/
theorem Progress.update (h : Progress c s₀ s accepted delivered)
    (hleft : CallsLeft c s [] []) :
    (s.update c).Inv c ∧ s₀.content c ++ accepted = delivered ++ (s.update c).content c := by
  have hlt := c.bufSize_lt
  have hroom := h.room
  have hhave := h.have_num
  have hnum : (s.update c).elementNum = s₀.elementNum + s.putNum - s.getNum := by
    simp only [State.update, h.elementNum]
    omega
  have hpos : 0 < c.bufSize := Nat.lt_trans Nat.zero_lt_one c.size_ok
  have hpop : (s.update c).popIndx = (s₀.popIndx + s.getNum) % c.bufSize :=
    Config.moved_eq h.popIndx fun hm => hleft.getOnce hm
  have hpush : (s.update c).pushIndx =
      (s₀.popIndx + s₀.elementNum + s.putNum) % c.bufSize :=
    Config.moved_eq h.pushIndx fun hm => hleft.putOnce hm
  have hcontent : (s.update c).content c = (s₀.content c ++ accepted).drop s.getNum := by
    rw [← h.contents_eq, State.content, hpop, hnum]
    exact Ring.contents_drop _ hroom (by omega)
  refine ⟨⟨?_, ?_, ?_, rfl, rfl⟩, ?_⟩
  · rw [hpop]
    exact Nat.mod_lt _ hpos
  · rw [hpush, hpop, hnum, Nat.mod_add_mod]
    congr 1
    omega
  · rw [hnum]
    omega
  · have hlen : s.getNum ≤ (s₀.content c).length := by
      simpa [State.content] using hhave
    rw [hcontent, h.delivered_eq, ← List.take_append_of_le_length hlen, List.take_append_drop]

end

def queueLaw (c : Config) :
    QueueLaw (machine T c) ports (fun _ turns => c.allowed turns) where
  Inv s := s.Inv c
  content s := s.content c
  inv s turns hinv hallowed := by
    obtain ⟨hprogress, hleft⟩ := Progress.run hinv hallowed
    exact (hprogress.update hleft).1
  law s turns hinv hallowed := by
    obtain ⟨hprogress, hleft⟩ := Progress.run hinv hallowed
    exact (hprogress.update hleft).2

theorem State.reset_inv [Inhabited T] (c : Config) (s : State T) : (s.reset c).Inv c := by
  have hpos : 0 < c.bufSize := Nat.lt_trans Nat.zero_lt_one c.size_ok
  refine ⟨?_, ?_, ?_, rfl, rfl⟩ <;> simp [reset, resetPut, resetGet, update, hpos]

theorem State.reset_content [Inhabited T] (c : Config) (s : State T) :
    (s.reset c).content c = [] := by
  simp [reset, resetPut, resetGet, update, content]

/-- A call that returns the data at the read index whether or not it holds an element. -/
def GetCall.reads : GetCall → Bool
  | .get | .getEnable _ | .peek => true
  | .bGet | .count _ | .request => false

/-- Some call reads after the gets before it took all of the `left` elements. -/
def Config.dry (c : Config) : Nat → List GetCall → Bool
  | _, [] => false
  | left, call :: calls =>
    (call.reads && left == 0) ||
      c.dry (left - if c.multiGet && call.requests then 1 else 0) calls

/-- No put goes through, or the get process reads elements only. -/
def State.undisturbed (c : Config) (s : State T) (turns : Delta T) : Bool :=
  !((lefts turns).any PutCall.requests && decide (s.elementNum < c.bufSize)) ||
    !c.dry s.elementNum (rights turns)

/-- The put half of one state and the get half of the other. -/
def State.merge (p g : State T) : State T where
  popIndx := g.popIndx
  getNum := g.getNum
  pushIndx := p.pushIndx
  putNum := p.putNum
  elementNum := p.elementNum
  buffer := p.buffer
  putEvent := p.putEvent || g.putEvent
  getEvent := p.getEvent || g.getEvent

section
variable {c : Config} {s₀ s p g : State T}

theorem State.merge_doPut (data : T) :
    (p.merge g).doPut c data = (p.doPut c data).merge g := by
  simp only [merge, doPut, mk.injEq, true_and, Bool.or_right_comm]
  exact ⟨rfl, rfl⟩

theorem State.merge_doGet (hnum : p.elementNum = g.elementNum) :
    (p.merge g).doGet c = p.merge (g.doGet c) := by
  simp only [merge, doGet, hnum, mk.injEq, true_and]
  constructor <;> simp only [Bool.or_assoc]

theorem State.merge_putStep (call : PutCall T) :
    (p.merge g).putStep c call =
      ((p.putStep c call).1.merge g, (p.putStep c call).2) := by
  have hready : (p.merge g).ready c = p.ready c := rfl
  cases call with
  | count query => cases query <;> rfl
  | ready => rfl
  | put data =>
    simp only [putStep, hready, merge_doPut]
    split <;> rfl
  | putMask data mask =>
    simp only [putStep, hready, merge_doPut]
    split <;> rfl
  | bPut data =>
    have hnum : (p.merge g).elementNum = p.elementNum := rfl
    simp only [putStep, hnum, merge_doPut]
    split
    · rfl
    · split <;> rfl

/-- The get process sees the put process in the data at the read index only. -/
theorem State.merge_getStep (hnum : p.elementNum = g.elementNum) (call : GetCall)
    (hread : call.reads ∨ (call = .bGet ∧ c.multiGet = false ∧ g.elementNum ≠ 0) →
      p.buffer g.popIndx = g.buffer g.popIndx) :
    (p.merge g).getStep c call =
      (p.merge (g.getStep c call).1, (g.getStep c call).2) := by
  have hrequest : (p.merge g).request c = g.request c := by
    simp only [request, merge, hnum]
  have hpeek (hr : call.reads) : (p.merge g).peek = g.peek := hread (.inl hr)
  cases call with
  | count query => cases query <;> simp [getStep, count, merge, hnum]
  | request => simp only [getStep, hrequest]
  | peek => simp only [getStep, hpeek rfl]
  | get =>
    simp only [getStep, hrequest, hpeek rfl, merge_doGet hnum]
    split <;> rfl
  | getEnable enable =>
    simp only [getStep, hrequest, hpeek rfl, merge_doGet hnum]
    split <;> rfl
  | bGet =>
    have hm : (p.merge g).elementNum = g.elementNum := hnum
    simp only [getStep, hm, merge_doGet hnum]
    split
    · rfl
    · split
      · rfl
      · have hsingle : c.multiGet = false := Bool.eq_false_iff.mpr ‹_›
        have hdata := hread (.inr ⟨rfl, hsingle, ‹_›⟩)
        simp [peek, merge, doGet, hsingle, hdata]

/-- A delta cycle that began in `s₀`, beside its put calls and its get calls alone. -/
structure Apart (c : Config) (s₀ s p g : State T) (puts : List (PutCall T))
    (gets : List GetCall) : Prop where
  merged : s = p.merge g
  elementNum : p.elementNum = g.elementNum
  buffer : g.buffer = s₀.buffer
  progress : ∃ accepted delivered, Progress c s₀ s accepted delivered
  left : CallsLeft c s puts gets
  undisturbed : (p.buffer = s₀.buffer ∧
      !(puts.any PutCall.requests && decide (s₀.elementNum < c.bufSize))) ∨
    !c.dry (s₀.elementNum - if c.multiGet then s.getNum else 0) gets

namespace Apart
variable {puts : List (PutCall T)} {gets : List GetCall}

theorem elementNum_eq {accepted delivered : List T} (h : Apart c s₀ s p g puts gets)
    (hp : Progress c s₀ s accepted delivered) : p.elementNum = s₀.elementNum := by
  rw [← hp.elementNum, h.merged]
  rfl

theorem data_eq {call : GetCall} (h : Apart c s₀ s p g puts (call :: gets)) (hinv : s₀.Inv c)
    (hread : call.reads ∨ (call = .bGet ∧ c.multiGet = false ∧ g.elementNum ≠ 0)) :
    p.buffer g.popIndx = g.buffer g.popIndx := by
  obtain ⟨accepted, delivered, hp⟩ := h.progress
  have hpop : g.popIndx = (s₀.popIndx + if c.multiGet then s.getNum else 0) % c.bufSize := by
    rw [← hp.popIndx, h.merged]
    rfl
  have hbuf : p.buffer = s.buffer := by rw [h.merged]; rfl
  have hnum : g.elementNum = s₀.elementNum := h.elementNum.symm.trans (h.elementNum_eq hp)
  -- the cell held an element when the delta cycle began, and still holds it
  have hheld (hlt : (if c.multiGet then s.getNum else 0) < s₀.elementNum) :
      p.buffer g.popIndx = g.buffer g.popIndx := by
    have hnow := hp.held hlt
    rw [(Progress.start hinv).held hlt] at hnow
    rw [h.buffer, hbuf, hpop]
    exact (Option.some.inj hnow).symm
  rcases hread with hreads | ⟨-, hsingle, hne⟩
  · rcases h.undisturbed with ⟨hsame, -⟩ | hfed
    · rw [hsame, h.buffer]
    · apply hheld
      simp only [Config.dry, hreads, Bool.true_and, Bool.not_eq_true', Bool.or_eq_false_iff,
        beq_eq_false_iff_ne] at hfed
      omega
  · apply hheld
    rw [hsingle, ← hnum]
    simpa using Nat.pos_of_ne_zero hne

/-- The elements left for the calls after a get call. -/
theorem left_eq {call : GetCall} {accepted delivered : List T}
    (h : Progress c s₀ s accepted delivered) (hleft : CallsLeft c s puts (call :: gets)) :
    (s₀.elementNum - if c.multiGet then (s.getStep c call).1.getNum else 0) =
      (s₀.elementNum - if c.multiGet then s.getNum else 0) -
        if c.multiGet && call.requests then 1 else 0 := by
  cases hm : c.multiGet with
  | false => simp
  | true =>
    have hcall := (Config.getsAllowed_cons hleft.getsAllowed).1
    simp only [if_true, Bool.true_and]
    rcases @State.getStep_cases T c s call hcall with ⟨hreq, hrequest, hs, -⟩ | ⟨hreq, hs, -⟩
    · have hlt := c.bufSize_lt
      have hroom := h.room
      have hhave := h.have_of_request hrequest (hleft.getOnce_zero hreq)
      have hnum : (s.doGet c).getNum = s.getNum + 1 := by
        simp only [State.doGet, hm, if_true]
        exact Nat.mod_eq_of_lt (by omega)
      rw [hs, hnum, hreq, if_pos rfl]
      omega
    · rw [hs]
      cases hr : call.requests with
      | false => simp
      | true =>
        have hnone : s.request c = false := by simpa [hr] using hreq
        have hle := of_decide_eq_false hnone
        rw [hm, if_pos rfl, h.elementNum] at hle
        rw [if_pos rfl]
        omega

theorem getStep {call : GetCall} (h : Apart c s₀ s p g puts (call :: gets)) (hinv : s₀.Inv c) :
    Apart c s₀ (s.getStep c call).1 p (g.getStep c call).1 puts gets ∧
      (s.getStep c call).2 = (g.getStep c call).2 := by
  have hstep := State.merge_getStep h.elementNum call (h.data_eq hinv)
  rw [← h.merged] at hstep
  obtain ⟨accepted, delivered, hp⟩ := h.progress
  have hcall := (Config.getsAllowed_cons h.left.getsAllowed).1
  have hkept : (g.getStep c call).1.elementNum = g.elementNum ∧
      (g.getStep c call).1.buffer = g.buffer := by
    rcases @State.getStep_cases T c g call hcall with ⟨-, -, hg, -⟩ | ⟨-, hg, -⟩
    · rw [hg]
      exact ⟨rfl, rfl⟩
    · rw [hg]
      exact ⟨rfl, rfl⟩
  refine ⟨⟨by rw [hstep], h.elementNum.trans hkept.1.symm, hkept.2.trans h.buffer,
    ⟨_, _, hp.getStep h.left⟩, h.left.getStep, ?_⟩, by rw [hstep]⟩
  rcases h.undisturbed with hquiet | hfed
  · exact .inl hquiet
  · right
    simp only [Config.dry, Bool.not_eq_true', Bool.or_eq_false_iff] at hfed
    rw [left_eq hp h.left, hfed.2, Bool.not_false]

theorem putStep {call : PutCall T} (h : Apart c s₀ s p g (call :: puts) gets)
    (hinv : s₀.Inv c) :
    Apart c s₀ (s.putStep c call).1 (p.putStep c call).1 g puts gets ∧
      (s.putStep c call).2 = (p.putStep c call).2 := by
  have hstep := @State.merge_putStep T c p g call
  rw [← h.merged] at hstep
  obtain ⟨accepted, delivered, hp⟩ := h.progress
  have hroom : s.elementNum ≤ c.bufSize := hp.elementNum ▸ hinv.room
  have hroom' : p.elementNum ≤ c.bufSize := by rwa [h.merged] at hroom
  have hcall := (Config.putsAllowed_cons h.left.putsAllowed).1
  refine ⟨⟨by rw [hstep], ?_, h.buffer, ⟨_, _, hp.putStep hinv h.left⟩, h.left.putStep hroom, ?_⟩,
    by rw [hstep]⟩
  · rcases State.putStep_cases c call hroom' hcall with ⟨data, -, -, hput, -⟩ | ⟨-, hput, -⟩
    · rw [hput]
      exact h.elementNum
    · rw [hput]
      exact h.elementNum
  · rcases h.undisturbed with ⟨hsame, hquiet⟩ | hfed
    · left
      simp only [List.any_cons, Bool.not_eq_true', Bool.and_eq_false_iff, Bool.or_eq_false_iff,
        decide_eq_false_iff_not] at hquiet
      refine ⟨?_, ?_⟩
      · rcases State.putStep_cases c call hroom' hcall with ⟨data, hreq, hready, -, -⟩ |
          ⟨-, hput, -⟩
        · have hlt : s₀.elementNum < c.bufSize := by
            have hr := of_decide_eq_true hready
            rw [h.elementNum_eq hp] at hr
            omega
          rcases hquiet with ⟨hno, -⟩ | hfull
          · rw [hno] at hreq
            cases hreq
          · exact absurd hlt hfull
        · rw [hput]
          exact hsame
      · rcases hquiet with ⟨-, hno⟩ | hfull
        · simp [hno]
        · simp [hfull]
    · right
      rw [hstep]
      rw [h.merged] at hfed
      exact hfed

theorem start {turns : Delta T} (hinv : s₀.Inv c) (hallowed : c.allowed turns)
    (hok : s₀.undisturbed c turns) :
    let start := { s₀ with putEvent := false, getEvent := false }
    Apart c s₀ start start start (lefts turns) (rights turns) := by
  refine ⟨rfl, rfl, rfl, ⟨_, _, Progress.start hinv⟩, CallsLeft.start hinv hallowed, ?_⟩
  rcases Bool.or_eq_true_iff.mp hok with hquiet | hfed
  · exact .inl ⟨rfl, hquiet⟩
  · right
    simpa [hinv.getNum] using hfed

end Apart

def separation (hinv : s₀.Inv c) :
    Separation (State.putStep (T := T) c) (State.getStep c) where
  Rel s p g puts gets := Apart c s₀ s p g puts gets
  left_state h := (h.putStep hinv).1
  left_result h := (h.putStep hinv).2
  right_state h := (h.getStep hinv).1
  right_result h := (h.getStep hinv).2

theorem State.delta_eq_of_sameCalls {turns turns' : Delta T} (hinv : s.Inv c)
    (hallowed : c.allowed turns) (hok : s.undisturbed c turns) (hsame : SameCalls turns turns') :
    s.delta c turns' = s.delta c turns := by
  have hallowed' : c.allowed turns' := by
    rwa [Config.allowed, ← hsame.1, ← hsame.2]
  have hok' : s.undisturbed c turns' := by
    rwa [undisturbed, ← hsame.1, ← hsame.2]
  obtain ⟨hrel, hresults⟩ := (separation hinv).run_eq (Apart.start hinv hallowed hok)
  obtain ⟨hrel', hresults'⟩ := (separation hinv).run_eq (Apart.start hinv hallowed' hok')
  rw [← hsame.1, ← hsame.2] at hrel' hresults'
  have hstate := hrel'.merged.trans hrel.merged.symm
  have hres := hresults'.trans hresults.symm
  simp only [delta, hstate, hres]

end

/-- The results of a run do not depend on the order of the calls in its delta cycles. -/
theorem outputs_eq_of_sameCalls {c : Config} {s : State T} {deltas deltas' : List (Delta T)}
    (hinv : s.Inv c) (hallowed : (machine T c).EveryStep (fun _ turns => c.allowed turns) s deltas)
    (hok : (machine T c).EveryStep (fun s turns => s.undisturbed c turns) s deltas)
    (hsame : List.Forall₂ SameCalls deltas deltas') :
    (machine T c).outputs s deltas' = (machine T c).outputs s deltas := by
  induction hsame generalizing s with
  | nil => rfl
  | @cons turns turns' rest rest' hturns _ ih =>
    have hstep : (machine T c).step s turns' = (machine T c).step s turns :=
      State.delta_eq_of_sameCalls hinv hallowed.1 hok.1 hturns
    simp only [Mealy.outputs, hstep]
    rw [ih ((queueLaw c).inv s turns hinv hallowed.1) hallowed.2 hok.2]

/-- The buffer is a queue within its size. As long as no delta cycle reads past the
last element beside a put, every call returns the same in every order of the processes. -/
theorem prim_buffer_fifo [Inhabited T] (c : Config) (before : State T)
    {deltas : List (Delta T)} (hallowed : ∀ turns ∈ deltas, c.allowed turns) :
    let start := before.reset c
    let outs := (machine T c).outputs start deltas
    let last : State T := (machine T c).run start deltas
    outs.flatMap ports.accepted = outs.flatMap ports.delivered ++ last.content c ∧
      last.elementNum ≤ c.size ∧
      ((machine T c).EveryStep (fun s turns => s.undisturbed c turns) start deltas →
        ∀ deltas', List.Forall₂ SameCalls deltas deltas' →
          (machine T c).outputs start deltas' = outs) := by
  intro start outs last
  have hinv : start.Inv c := State.reset_inv c before
  have hempty : start.content c = [] := State.reset_content c before
  clear_value start
  have hsteps := @Mealy.EveryStep.of_forall _ _ (machine T c) (fun turns => c.allowed turns)
    deltas hallowed start
  refine ⟨(queueLaw c).accepted_eq hinv hempty hsteps, ?_, ?_⟩
  · exact Nat.le_trans ((queueLaw c).run_inv hinv hsteps).room c.bufSize_le
  · intro hok deltas' hsame
    exact outputs_eq_of_sameCalls hinv hsteps hok hsame

/-- Any state before the reset. -/
def unused : State Nat where
  popIndx := 1
  getNum := 0
  pushIndx := 1
  putNum := 1
  elementNum := 1
  buffer := fun _ => 0
  putEvent := false
  getEvent := false

theorem prim_buffer_fifo_multi :
    let c : Config := ⟨3, true, true, by decide⟩
    let deltas : List (Delta Nat) :=
      [[.inl (.put 1), .inl (.put 2)],
       [.inr .get, .inl (.put 3), .inr (.getEnable true), .inl (.put 4)],
       [.inr .request, .inr .get]]
    let later : List (Delta Nat) :=
      [[.inl (.put 1), .inl (.put 2)],
       [.inl (.put 3), .inl (.put 4), .inr .get, .inr (.getEnable true)],
       [.inr .request, .inr .get]]
    (machine Nat c).outputs (unused.reset c) later =
        (machine Nat c).outputs (unused.reset c) deltas ∧
      ((machine Nat c).outputs (unused.reset c) deltas).flatMap ports.delivered = [1, 2, 3] := by
  intro c deltas later
  have hallowed : ∀ turns ∈ deltas, c.allowed turns := by decide
  have hok : (machine Nat c).EveryStep (fun s turns => s.undisturbed c turns) (unused.reset c)
      deltas := ⟨by decide +kernel, by decide +kernel, by decide +kernel, trivial⟩
  have hsame : List.Forall₂ SameCalls deltas later :=
    .cons ⟨rfl, rfl⟩ (.cons ⟨rfl, rfl⟩ (.cons ⟨rfl, rfl⟩ .nil))
  exact ⟨(prim_buffer_fifo c unused hallowed).2.2 hok later hsame, by decide +kernel⟩

/-- A get without a request returns the data of a put made before it in the same delta
cycle, and the old data when it is made first. -/
theorem get_without_request_depends_on_order :
    let c : Config := ⟨2, false, false, by decide⟩
    let deltas : List (Delta Nat) := [[.inl (.put 5), .inr .get]]
    let later : List (Delta Nat) := [[.inr .get, .inl (.put 5)]]
    (∀ turns ∈ deltas, c.allowed turns) ∧ List.Forall₂ SameCalls deltas later ∧
      ((machine Nat c).outputs (unused.reset c) deltas).map Results.gets =
        [[(.get, .got 5 false)]] ∧
      ((machine Nat c).outputs (unused.reset c) later).map Results.gets =
        [[(.get, .got 0 false)]] ∧
      (machine Nat c).outputs (unused.reset c) later ≠
        (machine Nat c).outputs (unused.reset c) deltas := by
  exact ⟨by decide, .cons ⟨rfl, rfl⟩ .nil, by decide +kernel, by decide +kernel,
    by decide +kernel⟩

end SystemcCompiler.PrimBuffer
