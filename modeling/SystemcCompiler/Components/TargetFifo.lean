import SystemcCompiler.Components.PrimFifo

/-! The FIFO inside an approximate time `sct_target`: its size and flags follow from
the processes of the initiator and the target. -/
namespace SystemcCompiler.PrimFifo
open Channel

variable {T : Type}

/-- A process as `sct_prim_fifo` tells them apart: a sequential METHOD is one
for elaboration, but works like a thread. -/
inductive ProcKind where
  | method
  | seqMethod
  | thread
  deriving DecidableEq

def ProcKind.cthread (kind : ProcKind) : Bool := kind != .method

/-- A bound `sct_target<T, TRAITS, 1>` before the end of elaboration. -/
structure Target where
  sync : Bool
  /-- The process of the initiator, none if it is attached to no process. -/
  put : Option ProcKind
  get : ProcKind
  /-- The target is added to its process through a port, which tells no sequential METHOD. -/
  getPort : Bool
  attFifoLength : Nat
  /-- The assertion of `resize`. -/
  resize_ok : 0 < ((if put = some .thread then 2 else 1) + sync.toNat + attFifoLength) % 2 ^ 32

namespace Target

/-- The field `cthread` of the target. -/
def cthread (t : Target) : Bool := t.get == .thread || (t.get == .seqMethod && !t.getPort)

def beforeEndOfElaboration (t : Target) : Config where
  fifoSize := ((if t.put = some .thread then 2 else 1) + t.sync.toNat + t.attFifoLength) % 2 ^ 32
  fifoSize_pos := t.resize_ok
  cthreadPut := t.put.any ProcKind.cthread
  cthreadGet := t.get.cthread
  syncValid := t.put.isSome && t.sync
  syncReady := t.put.isSome && !t.cthread
  mode := if t.sync then .targInitSync else .targInit

end Target

variable [Inhabited T]

/-- A put METHOD and a get thread, with the synchronization register. -/
private def syncTarget : Target where
  sync := true
  put := some .method
  get := .thread
  getPort := false
  attFifoLength := 0
  resize_ok := by decide

private def syncPeriods : List (Period Nat) :=
  [⟨⟨false, none⟩, ⟨false, some .get⟩, [⟨some ⟨false, some (5, true)⟩, none⟩]⟩,
   ⟨⟨false, none⟩, ⟨false, some .get⟩, [⟨some ⟨false, some (6, true)⟩, none⟩]⟩,
   ⟨⟨false, none⟩, ⟨false, some (.getData true)⟩, [⟨some ⟨false, some (7, true)⟩, none⟩]⟩]

end SystemcCompiler.PrimFifo
