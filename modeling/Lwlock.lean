import Lwlock.Machine
import Lwlock.Tally
import Lwlock.Chain
import Lwlock.History
import Lwlock.Delegate
import Lwlock.DelegateSteps
import Lwlock.DelegateTurn
import Lwlock.DelegateRunner
import Lwlock.DelegateStack
import Lwlock.DelegatePlaces
import Lwlock.DelegateCancel
import Lwlock.DelegateCancelStep
import Lwlock.DelegateOutcome
import Lwlock.Counter
import Lwlock.CounterRest
import Lwlock.CounterLedger
import Lwlock.CounterUnits
import Lwlock.DelegateLine
import Lwlock.CounterFair
import Lwlock.Linked
import Lwlock.Refine
import Lwlock.Handoff
import Lwlock.CondVar
import Lwlock.CondVarExact
import Lwlock.Monitor
import Lwlock.MonitorInv
import Lwlock.MonitorStep
import Lwlock.MonitorHandoff
import Lwlock.MonitorRelease
import Lwlock.MonitorSafe
import Lwlock.MonitorIntact
import Lwlock.Word
import Lwlock.Bitlock
import Lwlock.BitlockSpec
import Lwlock.BitlockView
import Lwlock.BitlockSafe
import Lwlock.RwBitlock
import Lwlock.RwBitlockSpec
import Lwlock.RwBitlockStep
import Lwlock.RwBitlockView
import Lwlock.RwBitlockSafe
import Lwlock.RwBitlockIsolated
import Lwlock.Mutex
import Lwlock.MutexInv
import Lwlock.MutexStep
import Lwlock.MutexRefine
import Lwlock.Mutex2b
import Lwlock.Mutex2bInv
import Lwlock.Mutex2bRefine
import Lwlock.WaiterDomain
import Lwlock.StackEvent
import Lwlock.Lifo
import Lwlock.LfStack
import Lwlock.RwBitlockOrder
import Lwlock.DList
import Lwlock.Rekey
import Lwlock.RwBitlockMark
import Lwlock.RwLock
import Lwlock.RwLockInv
import Lwlock.RwLockStep
import Lwlock.RwLockHand
import Lwlock.RwLockSort
import Lwlock.RwLockConvert
import Lwlock.RwLockTurn
import Lwlock.RwLockSafe
import Lwlock.DListHeap
import Lwlock.SwapMask
import Lwlock.MonitorChain
import Lwlock.MonitorKey
import Lwlock.MonitorSection
import Lwlock.SList32
import Lwlock.DelegateDrain
import Lwlock.AdList
import Lwlock.AdListStep
import Lwlock.AdListSeek
import Lwlock.AdListTour
import Lwlock.RwBitlockWord
import Lwlock.RwBitlockDebug
import Lwlock.RwBitlockSim
import Lwlock.RwBitlockSimUnlock
import Lwlock.RwBitlockAssert
import Lwlock.FairLock
import Lwlock.RwLockFair
