import SystemcCompiler.Components.FifoSynth

/-! A cycle accurate `sct_target` with `add_fifo`: the METHOD `put_to_fifo` stands between
the interface of the target, with its register, and the put side of the FIFO. -/
namespace SystemcCompiler.AddFifo
open Channel Fifo

/-- The constructor of the cycle accurate `sct_fifo`, its flags in the order of the source,
for the processes the FIFO is attached to. -/
def sctFifo (length : Nat) (length_pos : 0 < length) (cthreadPut cthreadGet : Bool)
    (syncValid syncReady _useElemNum initBuffer : Bool) : Config where
  length
  length_pos
  cthreadPut
  cthreadGet
  syncValid
  syncReady
  initBuffer

/-- `add_fifo` gives three flags to the constructor, where the default of the last is 0. -/
def addFifo (length : Nat) (length_pos : 0 < length) (cthreadGet : Bool)
    (syncValid syncReady initBuffer : Bool) : Config :=
  sctFifo length length_pos false cthreadGet syncValid syncReady initBuffer false

/-- `before_end_of_elaboration` stops for a FIFO between METHODs without a register; for a
thread's get with `sync_ready` it only prints a message. -/
def elaborated (cthreadGet syncValid syncReady : Bool) : Bool :=
  cthreadGet || syncValid || syncReady

variable {T σ : Type}

/-- The registers of the target, whose field `cthread` is cleared by `add_fifo`, and the FIFO. -/
structure Target (σ T : Type) where
  getReqD : Bool
  coreReqD : Bool
  coreDataD : T
  fifo : σ

/-- What the initiator drives in a cycle, and the get call of the target's process. -/
structure Input (T : Type) where
  coreReq : Bool
  coreData : T
  get : GetCall

structure Output (T : Type) where
  coreReady : Bool
  /-- The item taken from the interface: ready and valid in one cycle. -/
  accepted : Option T
  fifo : Returns T

namespace Target

/-- `ready_control` -/
def coreReady (s : Target σ T) : Bool := s.getReqD || !s.coreReqD

/-- The calls of `put_to_fifo`, whose `reset_put` a put overwrites, and of the get side. -/
def calls (s : Target σ T) (input : Input T) : Calls T where
  put :=
    if !s.coreReady then .put s.coreDataD
    else if input.coreReq then .put input.coreData
    else .clearPut
  get := input.get

/-- `core_thread`: `getReq` is what the put of `put_to_fifo` has returned. -/
def coreThread (s : Target σ T) (input : Input T) (getReq : Bool) (fifo : σ) : Target σ T where
  getReqD := getReq
  coreReqD := !s.coreReady || input.coreReq
  coreDataD := if input.coreReq && s.coreReady then input.coreData else s.coreDataD
  fifo

/-- The item in the register that the FIFO has yet to take. -/
def held (s : Target σ T) : List T := if s.coreReady then [] else [s.coreDataD]

theorem held_eq_nil (s : Target σ T) : s.held = [] ↔ s.coreReady = true := by
  unfold held
  split <;> simp [*]

/-- The registers in reset, with a FIFO in reset. -/
def reset [Inhabited T] (fifo : σ) : Target σ T := ⟨false, false, default, fifo⟩

end Target

/-- The target in front of a FIFO. -/
def stage (m : Mealy (Calls T) (Returns T)) : Mealy (Input T) (Output T) where
  State := Target m.State T
  step s input :=
    let (fifo, returns) := m.step s.fifo (s.calls input)
    (s.coreThread input returns.put.isSome fifo,
      { coreReady := s.coreReady
        accepted := if s.coreReady && input.coreReq then some input.coreData else none
        fifo := returns })

/-- The whole target as a queue, and its register as one. -/
def targetPorts : Ports (Output T) T where
  accepted o := o.accepted.toList
  delivered o := o.fifo.get.toList

def registerPorts : Ports (Output T) T where
  accepted o := o.accepted.toList
  delivered o := o.fifo.put.toList

/-- `put_to_fifo` calls the put side in every cycle, if only to reset it. -/
theorem calls_drives (s : Target σ T) (input : Input T) (held : Bool) :
    (s.calls input).put.drives held = true := by
  unfold Target.calls
  dsimp only
  split
  · rfl
  · split <;> rfl

theorem calls_unblocked (c : Config) (q : Queue T) (s : Target σ T) (input : Input T) :
    Synth.putUnblocked c q (s.calls input) = true := by
  unfold Synth.putUnblocked Target.calls
  dsimp only
  split
  · rename_i data hcall
    split at hcall
    · cases hcall
    · split at hcall <;> cases hcall
  · rfl

section
variable {m : Mealy (Calls T) (Returns T)} {ok : m.State → Calls T → Prop}

/-- The put of a cycle reports what `ready()` shows. -/
def PutReports (q : QueueLaw m ports ok) : Prop :=
  ∀ s calls, q.Inv s → ok s calls →
    (m.step s calls).2.put = calls.put.stored (m.step s calls).2.ready

/-- An accepted item is put at once or held until the put succeeds. -/
theorem held_law (s : Target σ T) (input : Input T) {returns : Returns T} (fifo : σ)
    (hput : returns.put = (s.calls input).put.stored returns.ready) :
    s.held ++ (if s.coreReady && input.coreReq then some input.coreData else none).toList =
      returns.put.toList ++ (s.coreThread input returns.put.isSome fifo).held := by
  rw [hput]
  obtain ⟨getReqD, coreReqD, coreDataD, old⟩ := s
  obtain ⟨coreReq, coreData, call⟩ := input
  cases getReqD <;> cases coreReqD <;> cases coreReq <;> cases returns.ready <;> rfl

/-- What is accepted goes through the register into the queue of the FIFO. -/
theorem target_law {content : σ → List T} (s : Target σ T) (input : Input T)
    {returns : Returns T} {fifo : σ}
    (hput : returns.put = (s.calls input).put.stored returns.ready)
    (hfifo : content s.fifo ++ returns.put.toList = returns.get.toList ++ content fifo) :
    content s.fifo ++ s.held ++
        (if s.coreReady && input.coreReq then some input.coreData else none).toList =
      returns.get.toList ++
        (content fifo ++ (s.coreThread input returns.put.isSome fifo).held) := by
  rw [List.append_assoc, held_law s input fifo hput, ← List.append_assoc, hfifo,
    List.append_assoc]

def registerLaw (q : QueueLaw m ports ok) (hput : PutReports q) :
    QueueLaw (stage m) registerPorts (fun s input => ok s.fifo (s.calls input)) where
  Inv s := q.Inv s.fifo
  content s := Target.held s
  inv s input h hok := q.inv s.fifo (s.calls input) h hok
  law s input h hok := held_law s input _ (hput s.fifo (s.calls input) h hok)

def targetLaw (q : QueueLaw m ports ok) (hput : PutReports q) :
    QueueLaw (stage m) targetPorts (fun s input => ok s.fifo (s.calls input)) where
  Inv s := q.Inv s.fifo
  content s := q.content s.fifo ++ Target.held s
  inv s input h hok := q.inv s.fifo (s.calls input) h hok
  law s input h hok :=
    target_law s input (hput s.fifo (s.calls input) h hok) (q.law s.fifo (s.calls input) h hok)

/-- What a run of the target from reset keeps: the accepted items are put once each and in
order, all but at most one in the register; the gets return them in order; and the target
is ready exactly when it has put all of them. -/
structure KeepsContract (m : Mealy (Calls T) (Returns T)) (content : m.State → List T)
    (length : Nat) (start : Target m.State T) (inputs : List (Input T)) : Prop where
  put : ((stage m).outputs start inputs).flatMap registerPorts.accepted =
    ((stage m).outputs start inputs).flatMap registerPorts.delivered ++
      Target.held ((stage m).run start inputs)
  order : ((stage m).outputs start inputs).flatMap targetPorts.accepted =
    ((stage m).outputs start inputs).flatMap targetPorts.delivered ++
      (content ((stage m).run start inputs).fifo ++ Target.held ((stage m).run start inputs))
  bound : (content ((stage m).run start inputs).fifo).length ≤ length
  ready : Target.coreReady ((stage m).run start inputs) = true ↔
    ((stage m).outputs start inputs).flatMap registerPorts.accepted =
      ((stage m).outputs start inputs).flatMap registerPorts.delivered

theorem keepsContract_of_law [Inhabited T] (q : QueueLaw m ports ok) (hput : PutReports q)
    {length : Nat} (hlength : ∀ s, q.Inv s → (q.content s).length ≤ length)
    {fifo : m.State} (hinv : q.Inv fifo) (hempty : q.content fifo = []) {inputs : List (Input T)}
    (hok : (stage m).EveryStep (fun s input => ok s.fifo (s.calls input))
      (Target.reset fifo) inputs) :
    KeepsContract m q.content length (Target.reset fifo) inputs := by
  let start : Target m.State T := Target.reset fifo
  have hstart : (registerLaw q hput).Inv start := hinv
  have hnone : (targetLaw q hput).content start = [] := by
    simp [targetLaw, start, Target.reset, Target.held, Target.coreReady, hempty]
  have hregister := (registerLaw q hput).accepted_eq hstart rfl hok
  have hqueue := (targetLaw q hput).accepted_eq (s := start) hinv hnone hok
  refine ⟨hregister, hqueue, hlength _ ((registerLaw q hput).run_inv hstart hok), ?_⟩
  rw [hregister]
  exact (Target.held_eq_nil _).symm.trans List.append_right_eq_self.symm

end

section
variable [Inhabited T] {length : Nat} {length_pos : 0 < length}
  {cthreadGet syncValid syncReady initBuffer : Bool}

theorem addFifo_loop (h : elaborated cthreadGet syncValid syncReady = true) :
    (addFifo length length_pos cthreadGet syncValid syncReady initBuffer).combValid = false ∨
      (addFifo length length_pos cthreadGet syncValid syncReady initBuffer).combReady = false := by
  simp only [elaborated, addFifo, sctFifo, Config.combValid, Config.combReady] at h ⊢
  cases cthreadGet <;> cases syncValid <;> cases syncReady <;> simp at h ⊢

/-- For every length, process kind of the get side and flags, in simulation and in
synthesis: runs whose get METHOD calls in every cycle, if only to clear. -/
theorem add_fifo_keeps_contract (length : Nat) (length_pos : 0 < length)
    (cthreadGet syncValid syncReady initBuffer : Bool)
    (hbuilt : elaborated cthreadGet syncValid syncReady = true) :
    let c := addFifo length length_pos cthreadGet syncValid syncReady initBuffer
    (∀ (old : Sim T) (inputs : List (Input T)),
      (stage (Sim.machine T c)).EveryStep
        (fun s input => (cthreadGet || input.get.drives (Sim.getReq s.fifo)) = true)
        (Target.reset (old.reset c)) inputs →
      KeepsContract (Sim.machine T c) (Sim.content c) length (Target.reset (old.reset c))
        inputs) ∧
    (∀ (old : Synth T) (inputs : List (Input T)),
      (stage (Synth.machine T c)).EveryStep
        (fun s input => (cthreadGet || input.get.drives (Synth.getReq s.fifo)) = true)
        (Target.reset (old.reset c)) inputs →
      KeepsContract (Synth.machine T c) (Synth.content c) length (Target.reset (old.reset c))
        inputs) := by
  intro c
  have hloop : c.combValid = false ∨ c.combReady = false := addFifo_loop hbuilt
  have hmethod : c.cthreadPut = false := rfl
  constructor
  · intro old inputs hok
    have hreports : PutReports (Sim.queueLaw T hloop) := by
      intro s calls h _
      change ((calls.resume (Sim.putWaiting s) (Sim.getWaiting s)).put).stored _ = _
      rw [Sim.Inv.resume_put h hmethod]
      rfl
    refine keepsContract_of_law (Sim.queueLaw T hloop) hreports
      (fun s h => Sim.Inv.content_le h) (Sim.reset_inv old)
      (congrArg Queue.content (Sim.reset_toQueue old)) (hok.imp fun s input hget => ?_)
    exact Bool.and_eq_true_iff.mpr ⟨calls_drives s input _, hget⟩
  · intro old inputs hok
    have hreports : PutReports (Synth.queueLaw T hmethod hloop) := by
      intro s calls h _
      change ((calls.put.resume (Synth.putWaiting s))).stored _ = _
      rw [Synth.Inv.putWaiting h]
      rfl
    refine keepsContract_of_law (Synth.queueLaw T hmethod hloop) hreports
      (fun s h => ?_) (Synth.reset_inv old) rfl (hok.imp fun s input hget => ?_)
    · exact (Synth.content_length s).symm ▸ Synth.Inv.room h
    · exact Synth.allowed_iff.mpr ⟨.inr (calls_drives s input _), Bool.or_eq_true_iff.mp hget,
        calls_unblocked c _ s input⟩

end

/-- One place, a get thread that waits a cycle: the second item stays in the register. -/
theorem add_fifo_keeps_contract_full :
    let c := addFifo 1 Nat.one_pos true false false false
    let start : Target (Sim Nat) Nat := Target.reset (Sim.reset c default)
    let inputs : List (Input Nat) :=
      [⟨true, 1, .idle⟩, ⟨true, 2, .idle⟩, ⟨true, 3, .get⟩, ⟨true, 3, .get⟩, ⟨true, 3, .idle⟩]
    ((stage (Sim.machine Nat c)).outputs start inputs).flatMap targetPorts.accepted = [1, 2, 3] ∧
      KeepsContract (Sim.machine Nat c) (Sim.content c) 1 start inputs := by
  intro c start inputs
  refine ⟨by decide +kernel, (add_fifo_keeps_contract 1 Nat.one_pos true false false false
    rfl).1 default inputs ?_⟩
  exact ⟨rfl, rfl, rfl, rfl, rfl, trivial⟩

/-- The target is ready for an item that a full FIFO does not take; and a get METHOD that
makes no call while its request stands loses an item. -/
theorem ready_without_room_and_idle_get :
    (let c := addFifo 1 Nat.one_pos true false false false
     let outputs := (stage (Sim.machine Nat c)).outputs (Target.reset (Sim.reset c default))
       [⟨true, 1, .idle⟩, ⟨true, 2, .idle⟩]
     outputs.map (fun o => (o.coreReady, o.fifo.ready, o.accepted, o.fifo.put)) =
       [(true, true, some 1, some 1), (true, false, some 2, none)]) ∧
    (let c := addFifo 2 Nat.two_pos false true false false
     let outputs := (stage (Sim.machine Nat c)).outputs (Target.reset (Sim.reset c default))
       [⟨true, 1, .clearGet⟩, ⟨true, 2, .clearGet⟩, ⟨false, 0, .get⟩, ⟨false, 0, .idle⟩,
        ⟨false, 0, .get⟩]
     outputs.flatMap targetPorts.accepted = [1, 2] ∧
       outputs.flatMap targetPorts.delivered = [1]) := by
  decide +kernel

/-- How a FIFO is created with `init_buffer`, and the processes of its sides. -/
inductive Creation where
  | direct (cthreadPut cthreadGet syncValid syncReady useElemNum : Bool)
  | target (cthreadGet syncValid syncReady : Bool)

def Creation.config (length : Nat) (length_pos : 0 < length) : Creation → Config
  | .direct cthreadPut cthreadGet syncValid syncReady useElemNum =>
    sctFifo length length_pos cthreadPut cthreadGet syncValid syncReady useElemNum true
  | .target cthreadGet syncValid syncReady =>
    addFifo length length_pos cthreadGet syncValid syncReady true

def Creation.isDirect : Creation → Bool
  | .direct .. => true
  | .target .. => false

/-- A reset leaves `T{}` in every slot, whatever was stored before. -/
def ResetClears (T : Type) [Inhabited T] (c : Config) : Prop :=
  (∀ (s : Sim T) (i : Nat), i < c.length → (s.reset c).buffer i = default) ∧
    ∀ (s : Synth T) (i : Nat), i < c.length → (s.reset c).buffer i = default

theorem resetClears_iff [Inhabited T] (c : Config) :
    ResetClears T c ↔ c.initBuffer = true ∨ c.length = 1 ∨ ∀ x : T, x = default := by
  constructor
  · intro h
    by_contra hnot
    simp only [not_or, not_forall] at hnot
    obtain ⟨hinit, hlength, x, hx⟩ := hnot
    have hlt : 1 < c.length := by
      have := c.length_pos
      omega
    have hslot := h.1 { (default : Sim T) with buffer := fun _ => x } 1 hlt
    simp [Sim.reset, hinit] at hslot
    exact hx hslot
  · intro h
    have hslot : ∀ (buffer : Nat → T) (i : Nat), i < c.length →
        (if i = 0 ∨ (c.initBuffer ∧ i < c.length) then default else buffer i) = default := by
      intro buffer i hi
      split
      · rfl
      · rename_i hold
        rcases h with hinit | hone | hunit
        · exact absurd (.inr ⟨hinit, hi⟩) hold
        · exact absurd (.inl (by omega)) hold
        · exact hunit _
    exact ⟨fun s i hi => hslot s.buffer i hi, fun s i hi => hslot s.buffer i hi⟩

/-- The `init_buffer` of `add_fifo` arrives as `use_elem_num`. -/
theorem init_buffer_clears_iff (T : Type) [Inhabited T] (length : Nat) (length_pos : 0 < length)
    (creation : Creation) :
    ResetClears T (creation.config length length_pos) ↔
      creation.isDirect = true ∨ length = 1 ∨ ∀ x : T, x = default := by
  rw [resetClears_iff]
  cases creation <;> rfl

/-- A FIFO of one element is cleared, made by `add_fifo` or not. -/
theorem init_buffer_clears_single :
    ResetClears Nat ((Creation.target false true true).config 1 Nat.one_pos) :=
  (init_buffer_clears_iff Nat 1 Nat.one_pos (.target false true true)).mpr (.inr (.inl rfl))

theorem add_fifo_keeps_old_slot :
    ¬∀ (length : Nat) (length_pos : 0 < length) (creation : Creation),
      ResetClears Nat (creation.config length length_pos) := by
  intro h
  have hslot := (h 2 Nat.two_pos (.target false true true)).1
    { (default : Sim Nat) with buffer := fun _ => 5 } 1 (by decide)
  revert hslot
  decide

end SystemcCompiler.AddFifo
