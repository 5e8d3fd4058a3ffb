import Cozal.Lib.Outcome
import Cozal.Lib.Loop
import Cozal.Lib.OrdMap
import Cozal.Lib.OrdSet
import Cozal.Lib.SortedSearch
import Cozal.Lib.SortedInsert
import Cozal.Lib.Grouped
import Cozal.Lib.Spacing
import Cozal.Lib.Triangle
import Cozal.Lib.Run
import Cozal.Lib.Since
import Cozal.Lib.SharedHeap
import Cozal.Lib.Agenda
import Cozal.Lib.Counted
import Cozal.Lib.CmpSet
import Cozal.Lib.Account
import Cozal.Util.StackWaker
import Cozal.Util.ExtendedEntry
import Cozal.Util.ReplaceWaker
import Cozal.Transposer.Basic
import Cozal.Transposer.Time
import Cozal.Transposer.MetaData
import Cozal.Transposer.Context
import Cozal.Transposer.StepInputs
import Cozal.Transposer.AddEvent
import Cozal.Transposer.WrappedTransposer
import Cozal.Transposer.Step
import Cozal.Transposer.Uninterrupted
import Cozal.Transposer.Emission
import Cozal.Transposer.Script
import Cozal.Transposer.RefCounted
import Cozal.Transposer.Work
import Cozal.Transposer.InTime
import Cozal.Transposer.Chain
import Cozal.Transposer.Saturate
import Cozal.Transposer.LateInputs
import Cozal.Transposer.Schedule
import Cozal.Transposer.Expire
import Cozal.Transposer.InputChain
import Cozal.Source.SourcePoll
import Cozal.Source.Steps
import Cozal.Source.Moves
import Cozal.Source.Calls
import Cozal.Source.Reachable
import Cozal.Source.Answerable
import Cozal.Source.Channels
import Cozal.Source.NoInputTransposerSource
import Cozal.Source.Reference
import Cozal.Source.TimeLine
import Cozal.Source.Rounds
import Cozal.Source.States
import Cozal.Source.Events
import Cozal.Source.Lookup
import Cozal.Source.NoFuture
import Cozal.Source.Panics
import Cozal.Source.Waiting
import Cozal.Source.Waiters
import Cozal.Source.WaiterCounts
import Cozal.Source.Coherence
import Cozal.Source.Returns
import Cozal.Source.Evaluate
import Cozal.Source.WalkBack
import Cozal.Source.Evictions
import Cozal.Source.Spacing
import Cozal.Source.EarliestPoll
import Cozal.Source.PollErrors
import Cozal.Source.CheckpointLookup
import Cozal.Source.NextEvent
import Cozal.Source.StepAndPrev
import Cozal.Source.FuturePanics
import Cozal.Transposer.SingleInputState
import Cozal.Transposer.EvaluateTo
import Cozal.Transpose.InputBuffer
import Cozal.Transpose.Steps
import Cozal.Duplicate.ChannelMap
import Cozal.Duplicate.Advanced
import Cozal.Duplicate.RollbackEvent
import Cozal.Duplicate.Original
import Cozal.Duplicate.Delivery
import Cozal.Duplicate.DuplicateWaker
import Cozal.Multiplex.AssignmentMap
import Cozal.Multiplex.PollInternal
import Cozal.Lib.Timetable
import Cozal.Adapters.Source
import Cozal.Adapters.InterruptStream
import Cozal.Transposer.Progress
import Cozal.Source.ForwardOnly
import Cozal.Source.Liveness
import Cozal.Source.InTurn
import Cozal.Source.Served
import Cozal.Adapters.NoInputSource
import Cozal.Testing.CollatzTransposer
import Cozal.Testing.Main
