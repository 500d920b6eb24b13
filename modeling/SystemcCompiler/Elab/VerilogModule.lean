import SystemcCompiler.Library.Drivers

/-! `VerilogModule`: its parts, what `serializeToStream` prints of them and what
`isEquivalentTo` compares. Printed text is kept as its items, without comments
and layout. -/
namespace SystemcCompiler.Elab

inductive PortDirection where
  | none | input | output | inout
  deriving DecidableEq

/-- `address` identifies the variable; `operator ==` does not look at it, nor at
whether `initValVars` is empty. -/
structure VerilogVar where
  address : Nat
  name : String
  bitwidth : Nat
  arrayDims : List Nat
  initVals : List Int
  isSigned : Bool
  hasInitValVars : Bool
  deriving DecidableEq

namespace VerilogVar

def same (var other : VerilogVar) : Bool :=
  var.name == other.name && var.bitwidth == other.bitwidth &&
    var.arrayDims == other.arrayDims && var.initVals == other.initVals &&
    var.isSigned == other.isSigned

def isConstant (var : VerilogVar) : Bool := !var.initVals.isEmpty

def checkInitVals (var : VerilogVar) : Bool :=
  !var.hasInitValVars || var.initVals.length == var.arrayDims.prod

end VerilogVar

/-- A declaration in the text. -/
structure VarDecl where
  isLocalparam : Bool
  isSigned : Bool
  bitwidth : Nat
  name : String
  arrayDims : List Nat
  initVals : List Int
  deriving DecidableEq

/-- Arrays without elements are printed as a comment. -/
def serializeVerVar (var : VerilogVar) : Option VarDecl :=
  if 0 ∈ var.arrayDims then none
  else
    let fullInitVals := var.isConstant && var.checkInitVals
    some
      { isLocalparam := fullInitVals
        isSigned := var.isSigned
        bitwidth := var.bitwidth
        name := var.name
        arrayDims := var.arrayDims
        initVals := if fullInitVals then var.initVals.take var.arrayDims.prod else [] }

/-- What `channelVarMap` has for an object; zero width objects are not in it. -/
inductive Channel where
  | zeroWidth
  | absent
  | vars (verVars : List VerilogVar)
  deriving DecidableEq

def Channel.verVars : Channel → List VerilogVar
  | .vars verVars => verVars
  | _ => []

inductive Edge where
  | any | posedge | negedge
  deriving DecidableEq

/-- An event or reset source: the object that holds it and the indices in it. -/
structure Source where
  indices : List Nat
  channel : Channel
  deriving DecidableEq

structure SensEvent where
  kind : Edge
  source : Source
  deriving DecidableEq

structure Reset where
  level : Bool
  isAsync : Bool
  source : Source
  deriving DecidableEq

structure VerilogProcCode where
  emptyProcess : Bool
  isSingleState : Bool
  body : String
  localVars : String
  resetSection : String
  tempAsserts : String
  tempRstAsserts : String
  mifArrDims : List Nat
  deriving DecidableEq

/-- A `ProcessView` with what the module keeps for it. `location` is the
declaration of the process function. -/
structure Process where
  location : Nat
  isThread : Bool
  procName : String
  hasLatch : Bool
  staticSensitivity : List SensEvent
  resets : List Reset
  code : VerilogProcCode
  procVars : List VerilogVar
  procConsts : List VerilogVar
  /-- `reg <= reg_next` pairs with the suffix of a modular interface element. -/
  procRegNextPairs : List (String × String × String)
  deriving DecidableEq

/-- An item of a sensitivity list. -/
structure SensItem where
  kind : Edge
  name : String
  indices : List Nat
  mifIndices : Nat
  deriving DecidableEq

inductive AlwaysKind where
  | comb | latch
  deriving DecidableEq

inductive ProcText where
  | empty
  | method (vars : List (Option VarDecl)) (mifArrDims : List Nat) (name : String)
      (always : Option AlwaysKind) (body : String)
  | thread (vars consts : List (Option VarDecl)) (mifArrDims : List Nat) (name : String)
      (asFunction : Bool) (localVars body : String) (sensList : List SensItem)
      (reset : Option (List (Bool × String × Nat) × String × String))
      (regNextPairs : List (String × String × String)) (tempAsserts : String)
  deriving DecidableEq

/-- Only one clock is printed, then the asynchronous resets. -/
def serializeSensList (proc : Process) : List SensItem :=
  let mifArrDimNum := proc.code.mifArrDims.length
  let clock := (proc.staticSensitivity.take 1).flatMap fun event =>
    (event.source.channel.verVars.take 1).map fun var =>
      if event.source.indices ≠ [] ∧ mifArrDimNum = 0 then
        ⟨event.kind, var.name, event.source.indices, 0⟩
      else ⟨event.kind, var.name, [], mifArrDimNum⟩
  let resets := (proc.resets.filter (·.isAsync)).flatMap fun reset =>
    reset.source.channel.verVars.map fun var =>
      ⟨if reset.level then .posedge else .negedge, var.name, [], mifArrDimNum⟩
  clock ++ resets

/-- The terms of `if ( rst || ~rst1 )`: level, variable, modular interface indices. -/
def serializeResetCondition (proc : Process) : List (Bool × String × Nat) :=
  proc.resets.flatMap fun reset =>
    reset.source.channel.verVars.map fun var =>
      (reset.level, var.name, proc.code.mifArrDims.length)

/-- `serializeProcSingle`, for methods. -/
def serializeProcSingle (proc : Process) : ProcText :=
  if proc.code.emptyProcess then .empty
  else .method (proc.procVars.map serializeVerVar) proc.code.mifArrDims proc.procName
    (if proc.staticSensitivity.isEmpty then none
      else some (if proc.hasLatch then .latch else .comb)) proc.code.body

def serializeProcSplit (noFuncCallThread : Bool) (proc : Process) : ProcText :=
  if proc.code.emptyProcess then .empty
  else .thread (proc.procVars.map serializeVerVar) (proc.procConsts.map serializeVerVar)
    proc.code.mifArrDims proc.procName (!noFuncCallThread || !proc.code.isSingleState)
    proc.code.localVars proc.code.body (serializeSensList proc)
    (if proc.resets.isEmpty then none
      else some (serializeResetCondition proc, proc.code.resetSection, proc.code.tempRstAsserts))
    proc.procRegNextPairs proc.code.tempAsserts

def serializeProcess (noFuncCallThread : Bool) (proc : Process) : ProcText :=
  if proc.isThread then serializeProcSplit noFuncCallThread proc else serializeProcSingle proc

variable {Obj : Type}

structure VerilogModuleInstance (Obj : Type) where
  name : String
  modObj : Obj
  /-- Names of the port and of what it is bound to. -/
  bindings : List (String × String)

/-- `operator ==` does not look at the module. -/
def VerilogModuleInstance.same (inst other : VerilogModuleInstance Obj) : Bool :=
  inst.name == other.name && inst.bindings == other.bindings

structure VerilogModule (Obj : Type) where
  modObj : Obj
  typeName : String
  name : String
  verilogIntrinsic : Option String
  dataVars : List VerilogVar
  channelVars : List VerilogVar
  verilogPorts : List (PortDirection × VerilogVar)
  verilogSignals : List VerilogVar
  instances : List (VerilogModuleInstance Obj)
  processes : List Process
  assignments : List (Drivers.Assignment VerilogVar)
  /-- Addresses of the variables that are declared. -/
  requiredVars : List Nat
  svaPropCode : String

/-- The text of a module without its name. Instances are printed without the
name of their module, which depends on `verModMap`. -/
inductive ModuleText where
  | intrinsic (name code : String)
  | module (ports : List (PortDirection × Option VarDecl)) (signals params : List (Option VarDecl))
      (assigns : List ((String × List Nat) × (String × List Nat))) (processes : List ProcText)
      (instances : List (String × List (String × String))) (svaPropCode : String)
  deriving DecidableEq

namespace VerilogModule

def isRequired (m : VerilogModule Obj) (var : VerilogVar) : Bool :=
  m.requiredVars.contains var.address

def portText (m : VerilogModule Obj) : List (PortDirection × Option VarDecl) :=
  m.verilogPorts.map fun port => (port.1, serializeVerVar port.2)

def signalText (m : VerilogModule Obj) : List (Option VarDecl) :=
  (m.verilogSignals.filter m.isRequired).map serializeVerVar

def paramText (m : VerilogModule Obj) : List (Option VarDecl) :=
  (m.dataVars.filter fun var => m.isRequired var && var.isConstant).map serializeVerVar

def assignText (m : VerilogModule Obj) : List ((String × List Nat) × (String × List Nat)) :=
  m.assignments.map fun asn =>
    ((asn.left.var.name, asn.left.idx), (asn.right.var.name, asn.right.idx))

def serializeToStream (noFuncCallThread : Bool) (m : VerilogModule Obj) : ModuleText :=
  match m.verilogIntrinsic with
  | some code => .intrinsic m.name code
  | none => .module m.portText m.signalText m.paramText m.assignText
      (m.processes.map (serializeProcess noFuncCallThread))
      (m.instances.map fun inst => (inst.name, inst.bindings)) m.svaPropCode

end VerilogModule

/-- `operator ==` of containers, with that of their elements. -/
def sameList {α : Type} (same : α → α → Bool) : List α → List α → Bool
  | [], [] => true
  | x :: xs, y :: ys => same x y && sameList same xs ys
  | _, _ => false

def sameAssignment (asn other : Drivers.Assignment VerilogVar) : Bool :=
  asn.left.var.same other.left.var && asn.left.idx == other.left.idx &&
    asn.right.var.same other.right.var && asn.right.idx == other.right.idx

/-- A comparison that may stop with an exception; it is left at the first `false`. -/
def andThen (first second : Option Bool) : Option Bool :=
  match first with
  | some true => second
  | result => result

/-- Lists of the same length, element by element. -/
def compareAll {α : Type} (compare : α → α → Option Bool) : List α → List α → Option Bool
  | x :: xs, y :: ys => andThen (compare x y) (compareAll compare xs ys)
  | _, _ => some true

/-- `channelVarMap.at` on both sides; it throws for an object that is not there. -/
def compareVars : Channel → Channel → Option Bool
  | .vars verVars, .vars others => some (sameList VerilogVar.same verVars others)
  | _, _ => none

def compareSens (sens other : SensEvent) : Option Bool :=
  if sens.kind ≠ other.kind then some false
  else if sens.source.indices ≠ other.source.indices then some false
  else if sens.source.channel = .zeroWidth then some (other.source.channel == .zeroWidth)
  else compareVars sens.source.channel other.source.channel

def compareReset (reset other : Reset) : Option Bool :=
  if reset.level ≠ other.level then some false
  else if reset.isAsync ≠ other.isAsync then some false
  else if reset.source.indices ≠ other.source.indices then some false
  else compareVars reset.source.channel other.source.channel

def compareProcess (proc other : Process) : Option Bool :=
  if proc.location ≠ other.location then some false
  else if proc.staticSensitivity.length ≠ other.staticSensitivity.length then some false
  else andThen (compareAll compareSens proc.staticSensitivity other.staticSensitivity)
    (if proc.resets.length ≠ other.resets.length then some false
      else compareAll compareReset proc.resets other.resets)

/-- `none` for an exception. -/
def VerilogModule.isEquivalentTo (m other : VerilogModule Obj) : Option Bool :=
  if m.typeName ≠ other.typeName then some false
  else
    match m.verilogIntrinsic, other.verilogIntrinsic with
    | some _, none => some false
    | none, some _ => some false
    | some code, some code' => some (m.name == other.name && code == code')
    | none, none =>
      if !sameList VerilogVar.same m.dataVars other.dataVars then some false
      else if !sameList VerilogVar.same m.channelVars other.channelVars then some false
      else if !sameList VerilogModuleInstance.same m.instances other.instances then some false
      else if !sameList sameAssignment m.assignments other.assignments then some false
      else if m.processes.length ≠ other.processes.length then some false
      else compareAll compareProcess m.processes other.processes

section Equivalence

/-- The comparisons are symmetric and transitive where they succeed. -/
private structure IsPer {α : Type} (r : α → α → Prop) : Prop where
  symm : ∀ {a b}, r a b → r b a
  trans : ∀ {a b c}, r a b → r b c → r a c

private theorem IsPer.of_key {α β : Type} (key : α → β) : IsPer fun a b => key a = key b :=
  ⟨Eq.symm, Eq.trans⟩

private theorem IsPer.and {α : Type} {r s : α → α → Prop} (hr : IsPer r) (hs : IsPer s) :
    IsPer fun a b => r a b ∧ s a b :=
  ⟨fun h => ⟨hr.symm h.1, hs.symm h.2⟩, fun h h' => ⟨hr.trans h.1 h'.1, hs.trans h.2 h'.2⟩⟩

private theorem IsPer.comap {α β : Type} {r : β → β → Prop} (hr : IsPer r) (f : α → β) :
    IsPer fun a b => r (f a) (f b) :=
  ⟨hr.symm, hr.trans⟩

private theorem IsPer.congr {α : Type} {r s : α → α → Prop} (hs : IsPer s)
    (h : ∀ a b, r a b ↔ s a b) : IsPer r := by
  obtain rfl : r = s := funext fun a => funext fun b => propext (h a b)
  exact hs

private theorem IsPer.forall₂ {α : Type} {r : α → α → Prop} (hr : IsPer r) :
    IsPer (List.Forall₂ r) := by
  refine ⟨fun {xs ys} h => ?_, fun {xs ys zs} h h' => ?_⟩
  · induction h with
    | nil => exact .nil
    | cons hfirst _ ih => exact .cons (hr.symm hfirst) ih
  · induction h generalizing zs with
    | nil => exact h'
    | cons hfirst _ ih =>
      cases h' with
      | cons hnext hrest => exact .cons (hr.trans hfirst hnext) (ih hrest)

theorem VerilogVar.same_iff (var other : VerilogVar) :
    var.same other = true ↔
      (var.name, var.bitwidth, var.arrayDims, var.initVals, var.isSigned) =
        (other.name, other.bitwidth, other.arrayDims, other.initVals, other.isSigned) := by
  simp [VerilogVar.same, and_assoc]

theorem sameList_iff {α : Type} {same : α → α → Bool} {xs ys : List α} :
    sameList same xs ys = true ↔ List.Forall₂ (fun x y => same x y = true) xs ys := by
  induction xs generalizing ys with
  | nil => cases ys <;> simp [sameList]
  | cons x xs ih => cases ys <;> simp [sameList, ih]

theorem andThen_true {first second : Option Bool} :
    andThen first second = some true ↔ first = some true ∧ second = some true := by
  rcases first with _ | _ | _ <;> simp [andThen]

theorem compareAll_iff {α : Type} {compare : α → α → Option Bool} {xs ys : List α} :
    xs.length = ys.length ∧ compareAll compare xs ys = some true ↔
      List.Forall₂ (fun x y => compare x y = some true) xs ys := by
  induction xs generalizing ys with
  | nil => cases ys <;> simp [compareAll]
  | cons x xs ih =>
    cases ys with
    | nil => simp
    | cons y ys =>
      rw [compareAll, andThen_true, List.forall₂_cons, ← ih, List.length_cons, List.length_cons,
        Nat.add_right_cancel_iff]
      tauto

private theorem sameVars_isPer : IsPer fun xs ys => sameList VerilogVar.same xs ys = true :=
  (((IsPer.of_key _).congr VerilogVar.same_iff).forall₂).congr fun _ _ => sameList_iff

private theorem compareVars_isPer : IsPer fun c c' => compareVars c c' = some true := by
  refine ⟨fun {c c'} h => ?_, fun {c c' c''} h h' => ?_⟩
  · cases c <;> cases c' <;> simp_all [compareVars]
    exact sameVars_isPer.symm h
  · cases c <;> cases c' <;> cases c'' <;> simp_all [compareVars]
    exact sameVars_isPer.trans h h'

private theorem sameChannel_isPer : IsPer fun c c' =>
    (c = .zeroWidth ∧ c' = .zeroWidth) ∨ compareVars c c' = some true := by
  refine ⟨fun {c c'} h => h.imp And.symm compareVars_isPer.symm, fun {c c' c''} h h' => ?_⟩
  rcases h with ⟨rfl, rfl⟩ | h
  · exact h'.imp (fun h => ⟨rfl, h.2⟩) fun h => h
  · rcases h' with ⟨rfl, rfl⟩ | h'
    · cases c <;> simp [compareVars] at h
    · exact .inr (compareVars_isPer.trans h h')

theorem compareSens_iff (sens other : SensEvent) :
    compareSens sens other = some true ↔
      (sens.kind, sens.source.indices) = (other.kind, other.source.indices) ∧
        ((sens.source.channel = .zeroWidth ∧ other.source.channel = .zeroWidth) ∨
          compareVars sens.source.channel other.source.channel = some true) := by
  unfold compareSens
  split_ifs with hkind hindices hzero
  · simp [hkind]
  · simp [hindices]
  · simp_all [compareVars]
  · simp_all

theorem compareReset_iff (reset other : Reset) :
    compareReset reset other = some true ↔
      (reset.level, reset.isAsync, reset.source.indices) =
        (other.level, other.isAsync, other.source.indices) ∧
        compareVars reset.source.channel other.source.channel = some true := by
  unfold compareReset
  split_ifs <;> simp_all

theorem compareProcess_iff (proc other : Process) :
    compareProcess proc other = some true ↔
      proc.location = other.location ∧
        List.Forall₂ (fun s s' => compareSens s s' = some true)
          proc.staticSensitivity other.staticSensitivity ∧
        List.Forall₂ (fun r r' => compareReset r r' = some true) proc.resets other.resets := by
  rw [← compareAll_iff, ← compareAll_iff]
  unfold compareProcess
  split_ifs <;> simp_all [andThen_true]

private theorem compareProcess_isPer : IsPer fun p p' => compareProcess p p' = some true := by
  have hsens : IsPer fun s s' => compareSens s s' = some true :=
    ((IsPer.of_key _).and (sameChannel_isPer.comap _)).congr compareSens_iff
  have hreset : IsPer fun r r' => compareReset r r' = some true :=
    ((IsPer.of_key _).and (compareVars_isPer.comap _)).congr compareReset_iff
  exact ((IsPer.of_key _).and ((hsens.forall₂.comap _).and (hreset.forall₂.comap _))).congr
    compareProcess_iff

theorem VerilogModuleInstance.same_iff (inst other : VerilogModuleInstance Obj) :
    inst.same other = true ↔ (inst.name, inst.bindings) = (other.name, other.bindings) := by
  simp [VerilogModuleInstance.same]

private theorem sameInstances_isPer : IsPer fun xs ys : List (VerilogModuleInstance Obj) =>
    sameList VerilogModuleInstance.same xs ys = true :=
  (((IsPer.of_key _).congr VerilogModuleInstance.same_iff).forall₂).congr fun _ _ => sameList_iff

private theorem sameAssignments_isPer :
    IsPer fun xs ys => sameList sameAssignment xs ys = true := by
  have hvar : IsPer fun v w => VerilogVar.same v w = true :=
    (IsPer.of_key _).congr VerilogVar.same_iff
  have hasn : IsPer fun a b => sameAssignment a b = true := by
    refine ((hvar.comap fun a : Drivers.Assignment VerilogVar => a.left.var).and
      ((IsPer.of_key fun a : Drivers.Assignment VerilogVar => a.left.idx).and
        ((hvar.comap fun a => a.right.var).and (IsPer.of_key fun a => a.right.idx)))).congr ?_
    intro a b
    simp [sameAssignment, and_assoc]
  exact hasn.forall₂.congr fun _ _ => sameList_iff

/-- What `isEquivalentTo` compares. -/
theorem VerilogModule.isEquivalentTo_iff (m m' : VerilogModule Obj) :
    m.isEquivalentTo m' = some true ↔ m.typeName = m'.typeName ∧
      ((∃ code, m.verilogIntrinsic = some code ∧ m'.verilogIntrinsic = some code ∧
          m.name = m'.name) ∨
        (m.verilogIntrinsic = none ∧ m'.verilogIntrinsic = none ∧
          sameList VerilogVar.same m.dataVars m'.dataVars = true ∧
          sameList VerilogVar.same m.channelVars m'.channelVars = true ∧
          sameList VerilogModuleInstance.same m.instances m'.instances = true ∧
          sameList sameAssignment m.assignments m'.assignments = true ∧
          List.Forall₂ (fun p p' => compareProcess p p' = some true)
            m.processes m'.processes)) := by
  rw [← compareAll_iff]
  unfold VerilogModule.isEquivalentTo
  by_cases htype : m.typeName = m'.typeName
  · rw [if_neg (not_not.mpr htype)]
    cases h : m.verilogIntrinsic with
    | none =>
      cases h' : m'.verilogIntrinsic with
      | none =>
        simp only [reduceCtorEq, false_and, exists_false, false_or, true_and]
        split_ifs <;> simp_all
      | some code' => simp
    | some code =>
      cases h' : m'.verilogIntrinsic with
      | none => simp
      | some code' =>
        simp only [Option.some.injEq, Bool.and_eq_true, beq_iff_eq, htype, true_and, reduceCtorEq,
          false_and, or_false]
        constructor
        · rintro ⟨hname, rfl⟩
          exact ⟨code, rfl, rfl, hname⟩
        · rintro ⟨_, rfl, rfl, hname⟩
          exact ⟨hname, rfl⟩
  · simp [htype]

theorem VerilogModule.isEquivalentTo_symm {m m' : VerilogModule Obj}
    (h : m.isEquivalentTo m' = some true) : m'.isEquivalentTo m = some true := by
  rw [isEquivalentTo_iff] at h ⊢
  refine ⟨h.1.symm, h.2.imp ?_ ?_⟩
  · rintro ⟨code, hcode, hcode', hname⟩
    exact ⟨code, hcode', hcode, hname.symm⟩
  · rintro ⟨hn, hn', hdata, hchan, hinsts, hasns, hprocs⟩
    exact ⟨hn', hn, sameVars_isPer.symm hdata, sameVars_isPer.symm hchan,
      sameInstances_isPer.symm hinsts, sameAssignments_isPer.symm hasns,
      compareProcess_isPer.forall₂.symm hprocs⟩

theorem VerilogModule.isEquivalentTo_trans {m m' m'' : VerilogModule Obj}
    (h : m.isEquivalentTo m' = some true) (h' : m'.isEquivalentTo m'' = some true) :
    m.isEquivalentTo m'' = some true := by
  rw [isEquivalentTo_iff] at h h' ⊢
  refine ⟨h.1.trans h'.1, ?_⟩
  rcases h.2 with ⟨code, hcode, hcode', hname⟩ | ⟨hn, hn', hdata, hchan, hinsts, hasns, hprocs⟩
  · rcases h'.2 with ⟨code', hcode'', hlast, hname'⟩ | ⟨hnone, -⟩
    · obtain rfl : code = code' := Option.some.inj (hcode'.symm.trans hcode'')
      exact .inl ⟨code, hcode, hlast, hname.trans hname'⟩
    · simp [hcode'] at hnone
  · rcases h'.2 with ⟨code, hcode, -⟩ | ⟨-, hn'', hdata', hchan', hinsts', hasns', hprocs'⟩
    · simp [hn'] at hcode
    · exact .inr ⟨hn, hn'', sameVars_isPer.trans hdata hdata', sameVars_isPer.trans hchan hchan',
        sameInstances_isPer.trans hinsts hinsts', sameAssignments_isPer.trans hasns hasns',
        compareProcess_isPer.forall₂.trans hprocs hprocs'⟩

end Equivalence
end SystemcCompiler.Elab
