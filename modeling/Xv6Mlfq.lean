import Xv6Mlfq.Access.Program
import Xv6Mlfq.Links.Family
import Xv6Mlfq.Queue.Theorems
import Xv6Mlfq.Runs.Run
import Xv6Mlfq.Kernel.Machine
import Xv6Mlfq.Queue.Lemmas.Unlinked
import Xv6Mlfq.Kernel.Lemmas.Sweep
import Xv6Mlfq.Kernel.Lemmas.Outcomes
import Xv6Mlfq.Kernel.Lemmas.Queued
import Xv6Mlfq.Kernel.Lemmas.Invariant
import Xv6Mlfq.Kernel.RunQueue
import Xv6Mlfq.Kernel.Priority
import Xv6Mlfq.Kernel.Dispatch
import Xv6Mlfq.Kernel.Lemmas.Clock
import Xv6Mlfq.Kernel.Boost
import Xv6Mlfq.Kernel.Nice
import Xv6Mlfq.Kernel.RoundRobin
import Xv6Mlfq.Queue.Lemmas.Append
import Xv6Mlfq.Queue.Interrupt
import Xv6Mlfq.Kernel.Interrupt
import Xv6Mlfq.Harts.Sharing
import Xv6Mlfq.Harts.OneHart
import Xv6Mlfq.Kernel.Clocks
import Xv6Mlfq.Queue.Empty
import Xv6Mlfq.Kernel.BoostTimes
import Xv6Mlfq.Kernel.Allotment
import Xv6Mlfq.Kernel.Log
import Xv6Mlfq.Kernel.Slots
import Xv6Mlfq.Kernel.Wakeup
import Xv6Mlfq.Kernel.NiceValue
import Xv6Mlfq.Threads.Posix
import Xv6Mlfq.Threads.ProducerConsumer.Semaphore
import Xv6Mlfq.Threads.ProducerConsumer.Conditional
import Xv6Mlfq.Threads.ProducerConsumer.Lemmas.Conditional
import Xv6Mlfq.Threads.ProducerConsumer.Theorems
import Xv6Mlfq.Threads.FooBar.Alternation
import Xv6Mlfq.Threads.FooBar.Semaphore
import Xv6Mlfq.Threads.FooBar.Conditional
import Xv6Mlfq.Threads.FooBar.Theorems
import Xv6Mlfq.ExitWait.Invariant
import Xv6Mlfq.ExitWait.Lemmas.Effects
import Xv6Mlfq.ExitWait.Lemmas.Steps
import Xv6Mlfq.ExitWait.Lemmas.Preserved
import Xv6Mlfq.ExitWait.History
import Xv6Mlfq.ExitWait.Theorems
import Xv6Mlfq.ExitWait.Uninterrupted
import Xv6Mlfq.Kernel.Parameters
import Xv6Mlfq.Logs.Changes
import Xv6Mlfq.Scan.Machine
import Xv6Mlfq.Scan.Lemmas.Steps
import Xv6Mlfq.Scan.Log
import Xv6Mlfq.Kernel.LogBounds
import Xv6Mlfq.Cache.Recency
import Xv6Mlfq.Cache.Coherence
import Xv6Mlfq.Journal.Crash
import Xv6Mlfq.Journal.Space
import Xv6Mlfq.Pipes.Sleepers
import Xv6Mlfq.Scan.Fairness
import Xv6Mlfq.Threads.MutexAdd
import Xv6Mlfq.Threads.PrintInOrder.Theorems
import Xv6Mlfq.Console.Echo
import Xv6Mlfq.Umalloc.Soundness
import Xv6Mlfq.Grep.Stream
import Xv6Mlfq.Files.Theorems
import Xv6Mlfq.Virtio.Theorems
import Xv6Mlfq.Uart.Theorems
import Xv6Mlfq.Kalloc.Pages
