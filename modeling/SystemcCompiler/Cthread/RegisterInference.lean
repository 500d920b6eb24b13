import Mathlib.Data.List.Induction
import SystemcCompiler.Cfg.UseDefSound

/-! Register inference of `ThreadBuilder`: from the use/def sets of all wait
states of a thread every variable becomes a register, a combinational variable
or a read-only value. -/
namespace SystemcCompiler.Cthread
open Cfg InsertionOrderSet

/-- What `analyzeUseDefResults` asks about the type and owner of a value. -/
structure ValueKind where
  isConstQualified : Bool
  isPointerToConst : Bool
  isScChannel : Bool
  isScVector : Bool
  isScChannelArray : Bool
  isScToolCombSignal : Bool
  combSignalClear : Bool
  parentIsScChannel : Bool
  isNullPointer : Bool
  isConstReference : Bool
  isConstVarOrLocRec : Bool
  isVariable : Bool
  isRecField : Bool
  /-- The value has an elaborated object, so it is a member of the module. -/
  isMember : Bool
  /-- Local constant defined in the reset section. -/
  isResetDefConst : Bool
  deriving DecidableEq

namespace ValueKind

def isChannel (k : ValueKind) : Bool :=
  k.isScChannel || k.isScVector || k.isScChannelArray || k.isScToolCombSignal

def isConsVal (k : ValueKind) : Bool :=
  !k.isConstReference && k.isConstVarOrLocRec

def isConstant (k : ValueKind) : Bool :=
  k.isConsVal || k.isConstReference

/-- A constant whose value is available in all states. -/
def isReadOnlyConst (k : ValueKind) : Bool :=
  k.isMember || (!k.isMember && (k.isConsVal && k.isResetDefConst))

/-- Neither a channel, nor a part of one, nor a constant. -/
def isPlain (k : ValueKind) : Bool :=
  !k.isChannel && !k.parentIsScChannel && !k.isConstant

end ValueKind

structure ThreadVars (α : Type) where
  threadRegVars : List α
  threadCombVars : List α
  threadReadOnlyVars : List α
  threadReadVars : List α
  threadReadNotDefVars : List α
  useVals : List α
  defVals : List α
  combSigReadNotDef : Bool

namespace ThreadVars
variable {α : Type} [DecidableEq α]

def empty : ThreadVars α :=
  ⟨[], [], [], [], [], [], [], false⟩

def remove (s : List α) (v : α) : List α :=
  s.filter (· ≠ v)

@[simp] theorem mem_remove (s : List α) (v w : α) : w ∈ remove s v ↔ w ∈ s ∧ w ≠ v := by
  simp [remove]

variable (kind : α → ValueKind)

def processRead (tv : ThreadVars α) (val : α) : ThreadVars α :=
  let k := kind val
  let tv := { tv with useVals := insert tv.useVals val }
  if !k.isConstQualified && !k.isPointerToConst && !k.isChannel then tv
  else if k.isNullPointer then tv
  else { tv with threadReadVars := insert tv.threadReadVars val }

def processReadNotDefined (tv : ThreadVars α) (val : α) : ThreadVars α :=
  let k := kind val
  if k.isChannel || k.parentIsScChannel then
    -- RnD channel becomes read only if it is not defined later
    if val ∈ tv.threadRegVars then tv
    else { tv with threadReadOnlyVars := insert tv.threadReadOnlyVars val }
  else if k.isConstant then
    if k.isReadOnlyConst then
      if val ∈ tv.threadRegVars then tv
      else { tv with threadReadOnlyVars := insert tv.threadReadOnlyVars val }
    else
      -- Local not replaced constant becomes register
      { tv with
        threadRegVars := insert tv.threadRegVars val
        threadReadOnlyVars := remove tv.threadReadOnlyVars val }
  else
    { tv with
      threadReadNotDefVars :=
        if val ∉ tv.threadRegVars ∧ val ∉ tv.threadCombVars ∧ k.isRecField = false then
          insert tv.threadReadNotDefVars val
        else tv.threadReadNotDefVars
      threadCombVars := remove tv.threadCombVars val
      threadRegVars := insert tv.threadRegVars val }

/-- `clearRnDs` are the read-not-defined combinational signals with clear flag of this state. -/
def processDefined (clearRnDs : List α) (tv : ThreadVars α) (val : α) : ThreadVars α :=
  let k := kind val
  let tv := { tv with
    defVals := insert tv.defVals val
    combSigReadNotDef := tv.combSigReadNotDef || decide (val ∈ clearRnDs) }
  if k.isChannel then
    { tv with
      threadReadOnlyVars := remove tv.threadReadOnlyVars val
      threadRegVars := insert tv.threadRegVars val }
  else if k.isConstant then tv
  else
    { tv with
      threadCombVars := if val ∈ tv.threadRegVars then tv.threadCombVars
        else insert tv.threadCombVars val
      threadReadNotDefVars := remove tv.threadReadNotDefVars val }

def processDeclared (tv : ThreadVars α) (val : α) : ThreadVars α :=
  let k := kind val
  if k.isVariable && !k.isConstVarOrLocRec then
    { tv with threadCombVars := if val ∈ tv.threadRegVars then tv.threadCombVars
        else insert tv.threadCombVars val }
  else tv

def analyzeUseDefResults (tv : ThreadVars α) (s : UseDef α) : ThreadVars α :=
  let rnds := s.getReadNotDefinedValues
  let clearRnDs := rnds.filter fun v => (kind v).isScToolCombSignal && (kind v).combSignalClear
  let tv := s.read.foldl (processRead kind) tv
  let tv := rnds.foldl (processReadNotDefined kind) tv
  let tv := s.arraydefined.foldl (processDefined kind clearRnDs) tv
  s.declared.foldl (processDeclared kind) tv

/-- Use/def of all wait states in the order they are processed. -/
def classify (states : List (UseDef α)) : ThreadVars α :=
  states.foldl (analyzeUseDefResults kind) empty

/-! ## Membership after each loop of the analysis -/

section Fold
variable {β γ : Type}

private theorem foldl_mem_or {step : β → γ → β} (sel : β → List γ) {P : Prop} (w : γ)
    (hstep : ∀ b x, w ∈ sel (step b x) ↔ w ∈ sel b ∨ w = x ∧ P) (l : List γ) (b : β) :
    w ∈ sel (l.foldl step b) ↔ w ∈ sel b ∨ w ∈ l ∧ P := by
  induction l generalizing b with
  | nil => simp
  | cons x l ih =>
    rw [List.foldl_cons, ih, hstep, List.mem_cons]
    tauto

private theorem foldl_mem_and_not {step : β → γ → β} (sel : β → List γ) {P : Prop} (w : γ)
    (hstep : ∀ b x, w ∈ sel (step b x) ↔ w ∈ sel b ∧ ¬ (w = x ∧ P)) (l : List γ) (b : β) :
    w ∈ sel (l.foldl step b) ↔ w ∈ sel b ∧ ¬ (w ∈ l ∧ P) := by
  induction l generalizing b with
  | nil => simp
  | cons x l ih =>
    rw [List.foldl_cons, ih, hstep, List.mem_cons]
    tauto

private theorem foldl_mem_iff {step : β → γ → β} (sel : β → List γ) (w : γ)
    (hstep : ∀ b x, w ∈ sel (step b x) ↔ w ∈ sel b) (l : List γ) (b : β) :
    w ∈ sel (l.foldl step b) ↔ w ∈ sel b := by
  induction l generalizing b with
  | nil => simp
  | cons x l ih => rw [List.foldl_cons, ih, hstep]

/-- Insertion guarded by a set the loop does not change for this value. -/
private theorem foldl_mem_or_of_absent {step : β → γ → β} (sel guard : β → List γ)
    {P : Prop} (w : γ) (hstep : ∀ b x, w ∈ sel (step b x) ↔ w ∈ sel b ∨ w = x ∧ P ∧ w ∉ guard b)
    (hguard : P → ∀ b x, w ∈ guard (step b x) ↔ w ∈ guard b) (l : List γ) (b : β) :
    w ∈ sel (l.foldl step b) ↔ w ∈ sel b ∨ w ∈ l ∧ P ∧ w ∉ guard b := by
  induction l generalizing b with
  | nil => simp
  | cons x l ih =>
    rw [List.foldl_cons, ih, hstep, List.mem_cons]
    by_cases hP : P
    · rw [hguard hP]
      tauto
    · tauto

end Fold

end ThreadVars

namespace ValueKind

/-- Reading it before it is defined makes it a register. -/
def regIfReadNotDefined (k : ValueKind) : Bool :=
  !k.isChannel && !k.parentIsScChannel && (!k.isConstant || !k.isReadOnlyConst)

def readOnlyIfReadNotDefined (k : ValueKind) : Bool :=
  k.isChannel || k.parentIsScChannel || (k.isConstant && k.isReadOnlyConst)

/-- A local constant read before it is defined stops being read only. -/
def dropsReadOnly (k : ValueKind) : Bool :=
  !(k.isChannel || k.parentIsScChannel) && k.isConstant && !k.isReadOnlyConst

def combIfDefined (k : ValueKind) : Bool :=
  !k.isChannel && !k.isConstant

def combIfDeclared (k : ValueKind) : Bool :=
  k.isVariable && !k.isConstVarOrLocRec

def isReadVar (k : ValueKind) : Bool :=
  (k.isConstQualified || k.isPointerToConst || k.isChannel) && !k.isNullPointer

end ValueKind

namespace ThreadVars
variable {α : Type} [DecidableEq α] (kind : α → ValueKind)

section ReadNotDefined
variable (tv : ThreadVars α) (x w : α)

theorem processReadNotDefined_of_ne (hw : w ≠ x) :
    (w ∈ (processReadNotDefined kind tv x).threadRegVars ↔ w ∈ tv.threadRegVars) ∧
    (w ∈ (processReadNotDefined kind tv x).threadCombVars ↔ w ∈ tv.threadCombVars) ∧
    (w ∈ (processReadNotDefined kind tv x).threadReadOnlyVars ↔ w ∈ tv.threadReadOnlyVars) := by
  simp only [processReadNotDefined]
  cases (kind x).isChannel || (kind x).parentIsScChannel
  · cases (kind x).isConstant
    · simp [hw]
    · cases (kind x).isReadOnlyConst
      · simp [hw]
      · by_cases hr : x ∈ tv.threadRegVars <;> simp [hr, hw]
  · by_cases hr : x ∈ tv.threadRegVars <;> simp [hr, hw]

theorem processReadNotDefined_reg : w ∈ (processReadNotDefined kind tv x).threadRegVars ↔
    w ∈ tv.threadRegVars ∨ w = x ∧ (kind w).regIfReadNotDefined = true := by
  by_cases hw : w = x
  · subst hw
    simp only [processReadNotDefined, ValueKind.regIfReadNotDefined, ← Bool.not_or]
    cases (kind w).isChannel || (kind w).parentIsScChannel
    · cases (kind w).isConstant
      · simp
      · cases (kind w).isReadOnlyConst
        · simp
        · by_cases hr : w ∈ tv.threadRegVars <;> simp [hr]
    · by_cases hr : w ∈ tv.threadRegVars <;> simp [hr]
  · rw [(processReadNotDefined_of_ne kind tv x w hw).1]
    simp [hw]

theorem processReadNotDefined_comb : w ∈ (processReadNotDefined kind tv x).threadCombVars ↔
    w ∈ tv.threadCombVars ∧ ¬ (w = x ∧ (kind w).isPlain = true) := by
  by_cases hw : w = x
  · subst hw
    simp only [processReadNotDefined, ValueKind.isPlain, ← Bool.not_or]
    cases (kind w).isChannel || (kind w).parentIsScChannel
    · cases (kind w).isConstant
      · simp
      · cases (kind w).isReadOnlyConst
        · simp
        · by_cases hr : w ∈ tv.threadRegVars <;> simp [hr]
    · by_cases hr : w ∈ tv.threadRegVars <;> simp [hr]
  · rw [(processReadNotDefined_of_ne kind tv x w hw).2.1]
    simp [hw]

/-- A local constant that is not replaced loses read-only, the others gain it. -/
theorem processReadNotDefined_readOnly :
    w ∈ (processReadNotDefined kind tv x).threadReadOnlyVars ↔
      (w ∈ tv.threadReadOnlyVars ∧ ¬ (w = x ∧ (kind w).dropsReadOnly = true)) ∨
      w = x ∧ (kind w).readOnlyIfReadNotDefined = true ∧ w ∉ tv.threadRegVars := by
  by_cases hw : w = x
  · subst hw
    simp only [processReadNotDefined, ValueKind.dropsReadOnly, ValueKind.readOnlyIfReadNotDefined]
    cases (kind w).isChannel || (kind w).parentIsScChannel
    · cases (kind w).isConstant
      · simp
      · cases (kind w).isReadOnlyConst
        · simp
        · by_cases hr : w ∈ tv.threadRegVars <;> simp [hr]
    · by_cases hr : w ∈ tv.threadRegVars <;> simp [hr]
  · rw [(processReadNotDefined_of_ne kind tv x w hw).2.2]
    simp [hw]

end ReadNotDefined

section Defined
variable (clearRnDs : List α) (tv : ThreadVars α) (x w : α)

theorem processDefined_reg : w ∈ (processDefined kind clearRnDs tv x).threadRegVars ↔
    w ∈ tv.threadRegVars ∨ w = x ∧ (kind w).isChannel = true := by
  simp only [processDefined]
  by_cases hw : w = x
  · subst hw
    cases (kind w).isChannel <;> cases (kind w).isConstant <;> simp
  · cases (kind x).isChannel <;> cases (kind x).isConstant <;> simp [hw]

theorem processDefined_comb : w ∈ (processDefined kind clearRnDs tv x).threadCombVars ↔
    w ∈ tv.threadCombVars ∨ w = x ∧ (kind w).combIfDefined = true ∧ w ∉ tv.threadRegVars := by
  simp only [processDefined, ValueKind.combIfDefined]
  by_cases hr : x ∈ tv.threadRegVars
  · by_cases hw : w = x
    · subst hw
      cases (kind w).isChannel <;> cases (kind w).isConstant <;> simp [hr]
    · cases (kind x).isChannel <;> cases (kind x).isConstant <;> simp [hr, hw]
  · by_cases hw : w = x
    · subst hw
      cases (kind w).isChannel <;> cases (kind w).isConstant <;> simp [hr]
    · cases (kind x).isChannel <;> cases (kind x).isConstant <;> simp [hr, hw]

theorem processDefined_readOnly : w ∈ (processDefined kind clearRnDs tv x).threadReadOnlyVars ↔
    w ∈ tv.threadReadOnlyVars ∧ ¬ (w = x ∧ (kind w).isChannel = true) := by
  simp only [processDefined]
  by_cases hw : w = x
  · subst hw
    cases (kind w).isChannel <;> cases (kind w).isConstant <;> simp
  · cases (kind x).isChannel <;> cases (kind x).isConstant <;> simp [hw]

theorem processDefined_readVars :
    (processDefined kind clearRnDs tv x).threadReadVars = tv.threadReadVars := by
  simp only [processDefined]
  cases (kind x).isChannel <;> cases (kind x).isConstant <;> rfl

end Defined

section Declared
variable (tv : ThreadVars α) (x w : α)

theorem processDeclared_comb : w ∈ (processDeclared kind tv x).threadCombVars ↔
    w ∈ tv.threadCombVars ∨ w = x ∧ (kind w).combIfDeclared = true ∧ w ∉ tv.threadRegVars := by
  simp only [processDeclared, ValueKind.combIfDeclared]
  by_cases hw : w = x
  · subst hw
    by_cases hr : w ∈ tv.threadRegVars <;>
      cases (kind w).isVariable && !(kind w).isConstVarOrLocRec <;> simp [hr]
  · by_cases hr : x ∈ tv.threadRegVars <;>
      cases (kind x).isVariable && !(kind x).isConstVarOrLocRec <;> simp [hr, hw]

theorem processDeclared_others :
    (processDeclared kind tv x).threadRegVars = tv.threadRegVars ∧
    (processDeclared kind tv x).threadReadOnlyVars = tv.threadReadOnlyVars ∧
    (processDeclared kind tv x).threadReadVars = tv.threadReadVars := by
  simp only [processDeclared]
  cases (kind x).isVariable && !(kind x).isConstVarOrLocRec <;> exact ⟨rfl, rfl, rfl⟩

end Declared

section Read
variable (tv : ThreadVars α) (x w : α)

theorem processRead_readVars : w ∈ (processRead kind tv x).threadReadVars ↔
    w ∈ tv.threadReadVars ∨ w = x ∧ (kind w).isReadVar = true := by
  simp only [processRead, ValueKind.isReadVar]
  by_cases hw : w = x
  · subst hw
    cases (kind w).isConstQualified <;> cases (kind w).isPointerToConst <;>
      cases (kind w).isChannel <;> cases (kind w).isNullPointer <;> simp
  · cases (kind x).isConstQualified <;> cases (kind x).isPointerToConst <;>
      cases (kind x).isChannel <;> cases (kind x).isNullPointer <;> simp [hw]

theorem processRead_others :
    (processRead kind tv x).threadRegVars = tv.threadRegVars ∧
    (processRead kind tv x).threadCombVars = tv.threadCombVars ∧
    (processRead kind tv x).threadReadOnlyVars = tv.threadReadOnlyVars := by
  simp only [processRead]
  split
  · exact ⟨rfl, rfl, rfl⟩
  · split <;> exact ⟨rfl, rfl, rfl⟩

theorem processReadNotDefined_readVars :
    (processReadNotDefined kind tv x).threadReadVars = tv.threadReadVars := by
  simp only [processReadNotDefined]
  cases (kind x).isChannel || (kind x).parentIsScChannel
  · cases (kind x).isConstant
    · rfl
    · cases (kind x).isReadOnlyConst
      · rfl
      · by_cases hr : x ∈ tv.threadRegVars <;> simp [hr]
  · by_cases hr : x ∈ tv.threadRegVars <;> simp [hr]

end Read

/-! ## What one wait state contributes -/

def RegEvidence (s : UseDef α) (w : α) : Prop :=
  w ∈ s.getReadNotDefinedValues ∧ (kind w).regIfReadNotDefined = true ∨
    w ∈ s.arraydefined ∧ (kind w).isChannel = true

def CombEvidence (s : UseDef α) (w : α) : Prop :=
  w ∈ s.arraydefined ∧ (kind w).combIfDefined = true ∨
    w ∈ s.declared ∧ (kind w).combIfDeclared = true

def ReadOnlyEvidence (s : UseDef α) (w : α) : Prop :=
  w ∈ s.getReadNotDefinedValues ∧ (kind w).readOnlyIfReadNotDefined = true

def ReadEvidence (s : UseDef α) (w : α) : Prop :=
  w ∈ s.read ∧ (kind w).isReadVar = true

theorem analyzeUseDefResults_reg (tv : ThreadVars α) (s : UseDef α) (w : α) :
    w ∈ (analyzeUseDefResults kind tv s).threadRegVars ↔
      w ∈ tv.threadRegVars ∨ RegEvidence kind s w := by
  simp only [analyzeUseDefResults]
  rw [foldl_mem_iff threadRegVars w fun b x => by rw [(processDeclared_others kind b x).1],
    foldl_mem_or threadRegVars w fun b x => processDefined_reg kind _ b x w,
    foldl_mem_or threadRegVars w fun b x => processReadNotDefined_reg kind b x w,
    foldl_mem_iff threadRegVars w fun b x => by rw [(processRead_others kind b x).1],
    RegEvidence, or_assoc]

theorem analyzeUseDefResults_readVars (tv : ThreadVars α) (s : UseDef α) (w : α) :
    w ∈ (analyzeUseDefResults kind tv s).threadReadVars ↔
      w ∈ tv.threadReadVars ∨ ReadEvidence kind s w := by
  simp only [analyzeUseDefResults]
  rw [foldl_mem_iff threadReadVars w fun b x => by rw [(processDeclared_others kind b x).2.2],
    foldl_mem_iff threadReadVars w fun b x => by rw [processDefined_readVars],
    foldl_mem_iff threadReadVars w fun b x => by rw [processReadNotDefined_readVars],
    foldl_mem_or threadReadVars w fun b x => processRead_readVars kind b x w, ReadEvidence]

private theorem isPlain_iff (k : ValueKind) : k.isPlain = true ↔
    k.regIfReadNotDefined = true ∧ k.combIfDefined = true := by
  unfold ValueKind.isPlain ValueKind.regIfReadNotDefined ValueKind.combIfDefined
  cases k.isChannel <;> cases k.parentIsScChannel <;> cases k.isConstant <;> simp

private theorem combIfDefined_not_channel {k : ValueKind} (h : k.combIfDefined = true) :
    k.isChannel = false := by
  unfold ValueKind.combIfDefined at h
  cases hc : k.isChannel <;> simp_all

/-- A declaration without initializer: not of a constant reference, not of a channel. -/
def DeclaredPlain (s : UseDef α) : Prop :=
  ∀ v ∈ s.declared, (kind v).isChannel = false ∧ (kind v).isConstReference = false

omit [DecidableEq α] in
theorem CombEvidence.combIfDefined {s : UseDef α} {w : α} (hd : DeclaredPlain kind s)
    (h : CombEvidence kind s w) : (kind w).combIfDefined = true := by
  rcases h with ⟨-, h⟩ | ⟨hw, h⟩
  · exact h
  · obtain ⟨hc, hr⟩ := hd w hw
    unfold ValueKind.combIfDeclared at h
    unfold ValueKind.combIfDefined ValueKind.isConstant ValueKind.isConsVal
    simp_all

theorem analyzeUseDefResults_comb (tv : ThreadVars α) (s : UseDef α) (w : α)
    (hd : DeclaredPlain kind s)
    (hinv : w ∈ tv.threadCombVars → w ∉ tv.threadRegVars ∧ (kind w).combIfDefined = true) :
    w ∈ (analyzeUseDefResults kind tv s).threadCombVars ↔
      (w ∈ tv.threadCombVars ∨ CombEvidence kind s w) ∧
        w ∉ (analyzeUseDefResults kind tv s).threadRegVars := by
  rw [analyzeUseDefResults_reg]
  have hev : CombEvidence kind s w → (kind w).combIfDefined = true :=
    CombEvidence.combIfDefined kind hd
  simp only [analyzeUseDefResults]
  rw [foldl_mem_or_of_absent threadCombVars threadRegVars w
      (fun b x => processDeclared_comb kind b x w)
      (fun _ b x => by rw [(processDeclared_others kind b x).1]),
    foldl_mem_or threadRegVars w fun b x => processDefined_reg kind _ b x w,
    foldl_mem_or_of_absent threadCombVars threadRegVars w
      (fun b x => processDefined_comb kind _ b x w)
      (fun hP b x => by
        rw [processDefined_reg, combIfDefined_not_channel hP]
        simp),
    foldl_mem_or threadRegVars w fun b x => processReadNotDefined_reg kind b x w,
    foldl_mem_and_not threadCombVars w fun b x => processReadNotDefined_comb kind b x w,
    foldl_mem_iff threadRegVars w fun b x => by rw [(processRead_others kind b x).1],
    foldl_mem_iff threadCombVars w fun b x => by rw [(processRead_others kind b x).2.1],
    isPlain_iff]
  unfold CombEvidence RegEvidence at *
  cases hc : (kind w).combIfDefined with
  | false =>
    simp only [hc] at hinv hev ⊢
    tauto
  | true =>
    rw [combIfDefined_not_channel hc]
    simp only [hc] at hinv ⊢
    grind

private theorem readOnlyIf_not_regIf {k : ValueKind} (h : k.readOnlyIfReadNotDefined = true) :
    k.regIfReadNotDefined = false ∧ k.dropsReadOnly = false := by
  unfold ValueKind.readOnlyIfReadNotDefined at h
  unfold ValueKind.regIfReadNotDefined ValueKind.dropsReadOnly
  cases hc : k.isChannel <;> cases hp : k.parentIsScChannel <;> simp_all

theorem analyzeUseDefResults_readOnly (tv : ThreadVars α) (s : UseDef α) (w : α)
    (hinv : w ∈ tv.threadReadOnlyVars →
      w ∉ tv.threadRegVars ∧ (kind w).readOnlyIfReadNotDefined = true) :
    w ∈ (analyzeUseDefResults kind tv s).threadReadOnlyVars ↔
      (w ∈ tv.threadReadOnlyVars ∨ ReadOnlyEvidence kind s w) ∧
        w ∉ (analyzeUseDefResults kind tv s).threadRegVars := by
  rw [analyzeUseDefResults_reg]
  simp only [analyzeUseDefResults]
  rw [foldl_mem_iff threadReadOnlyVars w fun b x => by rw [(processDeclared_others kind b x).2.1],
    foldl_mem_and_not threadReadOnlyVars w fun b x => processDefined_readOnly kind _ b x w]
  unfold ReadOnlyEvidence RegEvidence
  cases hk : (kind w).readOnlyIfReadNotDefined with
  | true =>
    obtain ⟨hreg, hdrop⟩ := readOnlyIf_not_regIf hk
    rw [foldl_mem_or_of_absent (P := True) threadReadOnlyVars threadRegVars w
        (fun b x => by simp [processReadNotDefined_readOnly, hk, hdrop])
        (fun _ b x => by simp [processReadNotDefined_reg, hreg]),
      foldl_mem_iff threadReadOnlyVars w fun b x => by rw [(processRead_others kind b x).2.2],
      foldl_mem_iff threadRegVars w fun b x => by rw [(processRead_others kind b x).1], hreg]
    simp only [hk] at hinv
    tauto
  | false =>
    have habs : w ∉ tv.threadReadOnlyVars := fun h => by simp [hk] at hinv; exact hinv h
    rw [foldl_mem_and_not (P := (kind w).dropsReadOnly = true) threadReadOnlyVars w
        (fun b x => by simp [processReadNotDefined_readOnly, hk]),
      foldl_mem_iff threadReadOnlyVars w fun b x => by rw [(processRead_others kind b x).2.2]]
    simp [habs]

/-! ## The classification of all wait states -/

/-- The sets a list of processed wait states determines, with no regard to its order. -/
structure Classified (states : List (UseDef α)) (tv : ThreadVars α) : Prop where
  reg : ∀ w, w ∈ tv.threadRegVars ↔ ∃ s ∈ states, RegEvidence kind s w
  comb : ∀ w, w ∈ tv.threadCombVars ↔
    (∃ s ∈ states, CombEvidence kind s w) ∧ ¬ ∃ s ∈ states, RegEvidence kind s w
  readOnly : ∀ w, w ∈ tv.threadReadOnlyVars ↔
    (∃ s ∈ states, ReadOnlyEvidence kind s w) ∧ ¬ ∃ s ∈ states, RegEvidence kind s w
  readVars : ∀ w, w ∈ tv.threadReadVars ↔ ∃ s ∈ states, ReadEvidence kind s w

private theorem exists_mem_concat {l : List γ} {x : γ} {P : γ → Prop} :
    (∃ y ∈ l ++ [x], P y) ↔ (∃ y ∈ l, P y) ∨ P x := by
  simp [or_and_right, exists_or]

private theorem settled_or {A B R S : Prop} :
    ((A ∧ ¬ R) ∨ B) ∧ ¬ (R ∨ S) ↔ (A ∨ B) ∧ ¬ (R ∨ S) := by
  tauto

theorem Classified.step {states : List (UseDef α)} {tv : ThreadVars α} {s : UseDef α}
    (h : Classified kind states tv) (hds : ∀ t ∈ states, DeclaredPlain kind t)
    (hd : DeclaredPlain kind s) :
    Classified kind (states ++ [s]) (analyzeUseDefResults kind tv s) := by
  have hreg : ∀ w, w ∈ (analyzeUseDefResults kind tv s).threadRegVars ↔
      ∃ t ∈ states ++ [s], RegEvidence kind t w := by
    intro w
    rw [analyzeUseDefResults_reg, h.reg, exists_mem_concat]
  refine ⟨hreg, fun w => ?_, fun w => ?_, fun w => ?_⟩
  · rw [analyzeUseDefResults_comb kind tv s w hd, hreg, h.comb, exists_mem_concat,
      exists_mem_concat]
    · exact settled_or
    · intro hw
      obtain ⟨⟨t, ht, hev⟩, hno⟩ := (h.comb w).mp hw
      exact ⟨fun hr => hno ((h.reg w).mp hr), hev.combIfDefined kind (hds t ht)⟩
  · rw [analyzeUseDefResults_readOnly kind tv s w, hreg, h.readOnly, exists_mem_concat,
      exists_mem_concat]
    · exact settled_or
    · intro hw
      obtain ⟨⟨t, -, hev⟩, hno⟩ := (h.readOnly w).mp hw
      exact ⟨fun hr => hno ((h.reg w).mp hr), hev.2⟩
  · rw [analyzeUseDefResults_readVars, h.readVars, exists_mem_concat]

theorem classify_classified {states : List (UseDef α)}
    (hds : ∀ t ∈ states, DeclaredPlain kind t) :
    Classified kind states (classify kind states) := by
  induction states using List.reverseRecOn with
  | nil => exact ⟨by simp [classify, empty], by simp [classify, empty],
      by simp [classify, empty], by simp [classify, empty]⟩
  | append_singleton l s ih =>
    have hl : ∀ t ∈ l, DeclaredPlain kind t := fun t ht => hds t (by simp [ht])
    have := (ih hl).step kind hl (hds s (by simp))
    rwa [classify, List.foldl_append]

end ThreadVars

/-- Use/def sets as constant propagation leaves them at a `wait()`. -/
structure WaitSets {α : Type} (kind : α → ValueKind) where
  useDef : UseDef α
  declaredPlain : ThreadVars.DeclaredPlain kind useDef

section WaitStates
variable {α : Type} [DecidableEq α]

/-- Insert or join the state for a `wait()`. -/
def addWaitState : List (Nat × UseDef α) → Nat × UseDef α → List (Nat × UseDef α)
  | [], w => [w]
  | v :: vs, w => if v.1 = w.1 then (v.1, v.2.join w.2) :: vs else v :: addWaitState vs w

/-- The map `waitStates` after all waits of the log. -/
def waitStates (log : List (Nat × UseDef α)) : List (Nat × UseDef α) :=
  log.foldl addWaitState []

theorem addWaitState_new (vs : List (Nat × UseDef α)) (w : Nat × UseDef α) :
    ∃ v ∈ addWaitState vs w, Weaker v.2 w.2 := by
  induction vs with
  | nil => exact ⟨w, by simp [addWaitState], Weaker.refl _⟩
  | cons v vs ih =>
    unfold addWaitState
    split
    · exact ⟨_, List.mem_cons_self, weaker_join_right _ _⟩
    · obtain ⟨u, hu, hweak⟩ := ih
      exact ⟨u, List.mem_cons_of_mem _ hu, hweak⟩

theorem addWaitState_old {vs : List (Nat × UseDef α)} {v : Nat × UseDef α} (hv : v ∈ vs)
    (w : Nat × UseDef α) : ∃ u ∈ addWaitState vs w, Weaker u.2 v.2 := by
  induction vs with
  | nil => cases hv
  | cons x vs ih =>
    unfold addWaitState
    rcases List.mem_cons.mp hv with rfl | hv
    · split
      · exact ⟨_, List.mem_cons_self, weaker_join_left _ _⟩
      · exact ⟨_, List.mem_cons_self, Weaker.refl _⟩
    · split
      · exact ⟨v, List.mem_cons_of_mem _ hv, Weaker.refl _⟩
      · obtain ⟨u, hu, hweak⟩ := ih hv
        exact ⟨u, List.mem_cons_of_mem _ hu, hweak⟩

theorem waitStates_weaker {log : List (Nat × UseDef α)} {w : Nat × UseDef α} (hw : w ∈ log) :
    ∃ v ∈ waitStates log, Weaker v.2 w.2 := by
  unfold waitStates
  induction log using List.reverseRecOn with
  | nil => cases hw
  | append_singleton l x ih =>
    rw [List.foldl_append, List.foldl_cons, List.foldl_nil]
    rcases List.mem_append.mp hw with hw | hw
    · obtain ⟨v, hv, hweak⟩ := ih hw
      obtain ⟨u, hu, hweak'⟩ := addWaitState_old hv x
      exact ⟨u, hu, hweak'.trans hweak⟩
    · obtain rfl := List.mem_singleton.mp hw
      exact addWaitState_new _ _

end WaitStates

namespace ThreadVars
variable {α L : Type} [DecidableEq α] (kind : α → ValueKind)

theorem mem_classify_reg {states : List (UseDef α)} {w : α} :
    w ∈ (classify kind states).threadRegVars ↔ ∃ s ∈ states, RegEvidence kind s w := by
  unfold classify
  induction states using List.reverseRecOn with
  | nil => simp [empty]
  | append_singleton l s ih =>
    rw [List.foldl_append, List.foldl_cons, List.foldl_nil, analyzeUseDefResults_reg, ih,
      exists_mem_concat]

/-- Variables of a thread, from the wait states its body leads to. -/
def ofProg (p : Prog α) : ThreadVars α :=
  classify kind ((waitStates (p.analyze UseDef.empty).waits).map Prod.snd)

theorem ofProg_reg_of_exposed {σ : Storage α L} {p : Prog α} {o : Outcome} {t : Segment α L}
    {ws : List (Nat × Segment α L)} (hrun : p.Run σ o t ws) {w : Nat × Segment α L} (hw : w ∈ ws)
    {a : Access α} {ℓ : L} (he : Exposed (w.2.after []) a ℓ)
    (hk : (kind a.zeroVal).isPlain = true) : a.zeroVal ∈ (ofProg kind p).threadRegVars := by
  obtain ⟨s, hs, hsound⟩ := (p.analyze_covers σ UseDef.empty [] o t ws (Sound.empty σ) hrun).2 w hw
  obtain ⟨v, hv, hweak⟩ := waitStates_weaker hs
  rw [ofProg, mem_classify_reg]
  refine ⟨v.2, List.mem_map_of_mem hv, Or.inl ⟨?_, ((isPlain_iff _).mp hk).1⟩⟩
  exact hweak.readNotDefined _ (hsound.exposed a ℓ he)

/-- Register inference. A variable whose value some execution reads after a wait
while it still comes from before that wait is a register; no variable is both a
register and combinational; the order of the wait states does not matter. -/
theorem register_inference (σ : Storage α L) :
    (∀ (p : Prog α) (o : Outcome) (t : Segment α L) (ws : List (Nat × Segment α L)),
      p.Run σ o t ws → ∀ w ∈ ws, ∀ (a : Access α) (ℓ : L), Exposed (w.2.after []) a ℓ →
        (kind a.zeroVal).isPlain = true → a.zeroVal ∈ (ofProg kind p).threadRegVars) ∧
    (∀ (states : List (WaitSets kind)) (v : α),
      v ∈ (classify kind (states.map WaitSets.useDef)).threadRegVars →
        v ∉ (classify kind (states.map WaitSets.useDef)).threadCombVars) ∧
    (∀ states order : List (WaitSets kind), states.Perm order → ∀ v : α,
      let tv := classify kind (states.map WaitSets.useDef)
      let tv' := classify kind (order.map WaitSets.useDef)
      (v ∈ tv.threadRegVars ↔ v ∈ tv'.threadRegVars) ∧
      (v ∈ tv.threadCombVars ↔ v ∈ tv'.threadCombVars) ∧
      (v ∈ tv.threadReadOnlyVars ↔ v ∈ tv'.threadReadOnlyVars) ∧
      (v ∈ tv.threadReadVars ↔ v ∈ tv'.threadReadVars)) := by
  have classified : ∀ states : List (WaitSets kind), Classified kind
      (states.map WaitSets.useDef) (classify kind (states.map WaitSets.useDef)) := by
    intro states
    apply classify_classified
    intro s hs
    obtain ⟨w, -, rfl⟩ := List.mem_map.mp hs
    exact w.declaredPlain
  refine ⟨?_, ?_, ?_⟩
  · intro p o t ws hrun w hw a ℓ he hk
    exact ofProg_reg_of_exposed kind hrun hw he hk
  · intro states v hreg hcomb
    have h := classified states
    exact ((h.comb v).mp hcomb).2 ((h.reg v).mp hreg)
  · intro states order hperm v
    have h := classified states
    have h' := classified order
    have hmem : ∀ s, s ∈ states.map WaitSets.useDef ↔ s ∈ order.map WaitSets.useDef :=
      fun s => (hperm.map _).mem_iff
    refine ⟨?_, ?_, ?_, ?_⟩
    · rw [h.reg, h'.reg]
      simp only [hmem]
    · rw [h.comb, h'.comb]
      simp only [hmem]
    · rw [h.readOnly, h'.readOnly]
      simp only [hmem]
    · rw [h.readVars, h'.readVars]
      simp only [hmem]

/-- A variable written before a wait and read after it. -/
theorem register_inference_across_wait :
    let x : Access Nat := ⟨true, 0, 0, 0, 0, false, false⟩
    let p : Prog Nat := .seq (.event (.write x false))
      (.seq (.wait 0) (.seq (.event (.read x false)) (.wait 1)))
    let plain : ValueKind := ⟨false, false, false, false, false, false, false, false, false, false,
      false, true, false, false, false⟩
    0 ∈ (ofProg (fun _ => plain) p).threadRegVars := by
  intro x p plain
  let write : Act Nat Nat := ⟨.write x false, ∅, {0}⟩
  let read : Act Nat Nat := ⟨.read x false, {0}, ∅⟩
  let σ : Storage Nat Nat := ⟨fun v => {v}⟩
  have hwrite : write.Respects σ := by simp [write, σ, Act.Respects, x]
  have hread : read.Respects σ := by simp [read, σ, Act.Respects, x]
  have hrun : p.Run σ .normal ⟨true, []⟩ [(0, ⟨false, [write]⟩), (1, ⟨true, [read]⟩)] := by
    refine Or.inr ⟨⟨false, [write]⟩, [], ⟨true, []⟩, _, ⟨rfl, rfl, write, rfl, hwrite, rfl⟩,
      Or.inr ⟨⟨true, []⟩, _, ⟨true, []⟩, _, ⟨rfl, rfl, rfl⟩, Or.inr ⟨⟨false, [read]⟩, [],
        ⟨true, []⟩, _, ⟨rfl, rfl, read, rfl, hread, rfl⟩, ⟨rfl, rfl, rfl⟩, rfl, rfl⟩, rfl, rfl⟩,
      rfl, rfl⟩
  refine (register_inference (fun _ => plain) σ).1 p _ _ _ hrun (1, ⟨true, [read]⟩) (by simp) x 0
    ?_ rfl
  exact ⟨[], read, [], false, rfl, rfl, rfl, by simp [Killed]⟩

end ThreadVars
end SystemcCompiler.Cthread
