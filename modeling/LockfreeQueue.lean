import LockfreeQueue.Library.Transition
import LockfreeQueue.Library.Word
import LockfreeQueue.Library.Fifo
import LockfreeQueue.Library.Ledger
import LockfreeQueue.Library.Bytes
import LockfreeQueue.Library.Digest
import LockfreeQueue.Library.Service
import LockfreeQueue.Library.Program
import LockfreeQueue.Library.Family
import LockfreeQueue.Library.Streams
import LockfreeQueue.Answers
import LockfreeQueue.Progress
import LockfreeQueue.PopIf
import LockfreeQueue.KeepN
import LockfreeQueue.Lagging
import LockfreeQueue.SizeCall
import LockfreeQueue.Numbers
import LockfreeQueue.Linearizable
import LockfreeQueue.Destroy
import LockfreeQueue.Dump
import LockfreeQueue.LockFree
import LockfreeQueue.Construct
import LockfreeQueue.Layout
import LockfreeQueue.Mapped
import LockfreeQueue.Shared
import LockfreeQueue.Create
import LockfreeQueue.Attach
import LockfreeQueue.Open
import LockfreeQueue.PackBypass
import LockfreeQueue.PackRow
import LockfreeQueue.PackQueues
import LockfreeQueue.PointerOwner
import LockfreeQueue.PointerQueue
import LockfreeQueue.HashSignature
import LockfreeQueue.WidthCheck
import LockfreeQueue.Bandwidth
import LockfreeQueue.HashTests
import LockfreeQueue.MappedSteps
import LockfreeQueue.SharedUse
import LockfreeQueue.WaitFreePush
import LockfreeQueue.WaitFreePop
