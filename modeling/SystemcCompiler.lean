import SystemcCompiler.Library.InsertionOrderSet
import SystemcCompiler.Library.Lockstep
import SystemcCompiler.Library.Ring
import SystemcCompiler.Library.Sva
import SystemcCompiler.Library.Channel
import SystemcCompiler.Library.DeltaCycle
import SystemcCompiler.Library.Slice
import SystemcCompiler.Library.SvExpr
import SystemcCompiler.Cfg.UseDef
import SystemcCompiler.Cfg.UseDefSound
import SystemcCompiler.Cfg.StateJoin
import SystemcCompiler.Cfg.StateSound
import SystemcCompiler.Cfg.RemoveUnused
import SystemcCompiler.Cfg.ShortCircuit
import SystemcCompiler.Cthread.RegisterInference
import SystemcCompiler.Cthread.StateCode
import SystemcCompiler.Cthread.StateMerge
import SystemcCompiler.Cthread.WaitN
import SystemcCompiler.Cthread.NoLatch
import SystemcCompiler.Expr.Terms
import SystemcCompiler.Expr.Unsigned
import SystemcCompiler.Expr.Promoted
import SystemcCompiler.Expr.ConstFold
import SystemcCompiler.Expr.CompoundAssign
import SystemcCompiler.Expr.Literals
import SystemcCompiler.Expr.PartSelect
import SystemcCompiler.Expr.ScFold
import SystemcCompiler.Components.Calls
import SystemcCompiler.Components.Fifo
import SystemcCompiler.Components.FifoSim
import SystemcCompiler.Components.FifoSynth
import SystemcCompiler.Components.Buffer
import SystemcCompiler.Components.Pipe
import SystemcCompiler.Components.InitiatorTarget
import SystemcCompiler.Components.PrimFifo
import SystemcCompiler.Components.PrimFifoReset
import SystemcCompiler.Components.TargetFifo
import SystemcCompiler.Components.TargetAddFifo
import SystemcCompiler.Components.Clock
import SystemcCompiler.Components.TlmSignal
import SystemcCompiler.Components.WakeUp
import SystemcCompiler.Components.Overloads
import SystemcCompiler.Components.Property
import SystemcCompiler.Components.Register
import SystemcCompiler.Library.Drivers
import SystemcCompiler.Elab.FilterAssignments
import SystemcCompiler.Elab.VerilogModule
import SystemcCompiler.Elab.UseDefErrors
import SystemcCompiler.Elab.ProcessRaces
import SystemcCompiler.Elab.TopWrapper
import SystemcCompiler.Library.Unfolding
import SystemcCompiler.Library.FreshName
import SystemcCompiler.Elab.NameGenerator
import SystemcCompiler.Elab.Uniquify
import SystemcCompiler.Components.PrimBuffer
import SystemcCompiler.Components.FifoCount
import SystemcCompiler.Library.ApsInt
import SystemcCompiler.Elab.VarNames
import SystemcCompiler.Expr.Brackets
import SystemcCompiler.Utils.StringFormat
import SystemcCompiler.Cfg.SValueAssign
import SystemcCompiler.Cfg.LoopPolicy
import SystemcCompiler.Expr.Concat
import SystemcCompiler.Cthread.Declarations
import SystemcCompiler.Library.PartialArray
import SystemcCompiler.Expr.InitList
import SystemcCompiler.Expr.Casts
import SystemcCompiler.Expr.PutCompAssign
import SystemcCompiler.Elab.ProcBuilder
import SystemcCompiler.Elab.MifArrays
import SystemcCompiler.Library.BitLoops
import SystemcCompiler.Components.StaticLog
import SystemcCompiler.Components.SctUtils
import SystemcCompiler.Cfg.StmtInfo
import SystemcCompiler.Library.ClockedProcess
import SystemcCompiler.Kernel.ThreadProcess
import SystemcCompiler.Elab.AlwaysFf
import SystemcCompiler.Scope.PrintsCode
import SystemcCompiler.Scope.GeneratedCode
