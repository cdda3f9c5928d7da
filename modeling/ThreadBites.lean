import ThreadBites.Transition
import ThreadBites.WaitQueue
import ThreadBites.HeapTiling
import ThreadBites.RwlockWakeups
import ThreadBites.CondVarWaiters
import ThreadBites.CondVarSignals
import ThreadBites.InheritMutexWakeups
import ThreadBites.MutexReports
import ThreadBites.TidWord
import ThreadBites.DescriptorRelease
import ThreadBites.DescriptorReuse
import ThreadBites.KeyValues
import ThreadBites.KeyExclusion
import ThreadBites.CreationSched
import ThreadBites.SleeperBounds
import ThreadBites.HeapContents
import ThreadBites.CancelRequests
import ThreadBites.CleanupRuns
import ThreadBites.OnceProtocol
import ThreadBites.CondVarReleases
import ThreadBites.CondVarReturns
import ThreadBites.FinalUnlock
import ThreadBites.JoinGraph
import ThreadBites.RunningThreads
import ThreadBites.CeilingRuns
import ThreadBites.CancelLock
import ThreadBites.StartHandshake
import ThreadBites.ChainPriorities
import ThreadBites.LockOrder
import ThreadBites.CondVarRechecks
import ThreadBites.CondVarBinding
import ThreadBites.CallocArrays
import ThreadBites.FailedSchedParam
import ThreadBites.KeyDestructors
import ThreadBites.FailedCreate
import ThreadBites.Numerals
import ThreadBites.Printing
import ThreadBites.PrintedNumbers
import ThreadBites.FormatItems
import ThreadBites.FormatStrings
import ThreadBites.FormattedText
import ThreadBites.LinkedLists
import ThreadBites.IntrusiveLists
import ThreadBites.ListSequences
import ThreadBites.CriticalSections
import ThreadBites.AtomicSections
import ThreadBites.FutexSections
import ThreadBites.RwlockSections
import ThreadBites.CondVarSections
import ThreadBites.HeapRuns
import ThreadBites.MutexSections
import ThreadBites.MutexHandover
import ThreadBites.PrintSections
import ThreadBites.RwlockWriters
import ThreadBites.CondVarDelivery
import ThreadBites.LinearCongruence
import ThreadBites.Random
