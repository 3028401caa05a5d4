import Ptl.TransitionSystem
import Ptl.ThreadProgram
import Ptl.Countdown
import Ptl.Duty
import Ptl.MpmcTurns
import Ptl.MpmcQueue
import Ptl.MpmcOutline
import Ptl.MpmcInterference
import Ptl.MpmcAgreement
import Ptl.WeakCount
import Ptl.WeakReferences
import Ptl.WeakCountInvariant
import Ptl.WeakLifetime
import Ptl.IoOperation
import Ptl.IoService
import Ptl.IoDispatch
import Ptl.WaitAll
import Ptl.WaitAllCompletion
import Ptl.AsyncScope
import Ptl.AsyncScopeJoin
import Ptl.Placement
import Ptl.TaskExecution
import Ptl.TaskPlaces
import Ptl.TaskReturn
import Ptl.Descent
import Ptl.TaskTermination
import Ptl.Expected
import Ptl.TaskProgram
import Ptl.TaskEvaluation
import Ptl.IoDuplex
import Ptl.IoPolling
import Ptl.TaskStarts
import Ptl.TaskAgreement
import Ptl.TaskCalls
import Ptl.IntrusiveList
import Ptl.RingBuffer
import Ptl.ManualResetEvent
import Ptl.MpmcLifetime
import Ptl.QueuedExecutor
import Ptl.SyncWaitTask
import Ptl.AsyncWaitTask
import Ptl.ProcessService
import Ptl.QueuedExecutorStop
import Ptl.ProcessExit
import Ptl.SocketOwnership
import Ptl.SocketServices
import Ptl.HandleVariables
import Ptl.IntrusiveHandles
import Ptl.WeakHandles
import Ptl.ExpectedVariables
import Ptl.WaitAllAwaits
import Ptl.ExecutorCurrent
import Ptl.RecvTransfer
import Ptl.ByteOrder
import Ptl.SendTransfer
import Ptl.SocketAddress
import Ptl.SocketMoves
import Ptl.AcceptedSocket
import Ptl.DescriptorTable
import Ptl.ProcessLaunch
import Ptl.MpmcTryPop
import Ptl.MpmcTryPush
import Ptl.ExpectedThrow
import Ptl.PackedPtr
import Ptl.AtomicPackedPtr
import Ptl.OrderedScheduler
import Ptl.ReferenceExpected
import Ptl.ListDestruction
import Ptl.LinkedChain
import Ptl.SList
import Ptl.IntrusiveSList
import Ptl.SListMembership
import Ptl.SListDestruction
import Ptl.ScopeGuard
import Ptl.IpAddress
import Ptl.IntegerTypes
import Ptl.IntegerChecking
import Ptl.BitField
import Ptl.BitFieldCounters
import Ptl.Fnv1a
import Ptl.ErrorCode
import Ptl.MpmcWrap
import Ptl.RingBufferIndices
import Ptl.AlignedAllocator
import Ptl.AsyncScopeLifetime
import Ptl.MpmcOrder
import Ptl.TaskHandles
import Ptl.WaitAllLifetime
import Ptl.IntrusiveMembers
import Ptl.ExpectedContents
import Ptl.LinkedPermutation
import Ptl.ListEntries
import Ptl.MemberCollection
import Ptl.AsyncWaitReturn
import Ptl.MpmcProgress
import Ptl.PackedExceptions
import Ptl.QueuedExecutorProgress
import Ptl.SubprocessPipes
import Ptl.TaskFrames
import Ptl.Fnv1aDistinct
import Ptl.IntTask
import Ptl.SafeInteger
import Ptl.StrongReferences
import Ptl.IoProgress
