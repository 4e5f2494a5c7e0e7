import OsPAs.Lib.Unsigned
import OsPAs.Lib.Ensures
import OsPAs.Lib.Loop
import OsPAs.Lib.Commands
import OsPAs.Lib.Scan
import OsPAs.Lib.Queues
import OsPAs.Lib.WaitsFor
import OsPAs.Lib.ShortestFirst
import OsPAs.Lib.WorkConserving
import OsPAs.Lib.SingleServer
import OsPAs.Lib.Aging
import OsPAs.Lib.History
import OsPAs.Lib.Strings
import OsPAs.Lib.Words
import OsPAs.Lib.Lines
import OsPAs.Lib.Numerals
import OsPAs.Lib.Strtok
import OsPAs.Lib.Cells
import OsPAs.Lib.Links
import OsPAs.Lib.Rings
import OsPAs.Lib.Refines
import OsPAs.Lib.Heap
import OsPAs.Lib.HeapStrings
import OsPAs.Sched.State
import OsPAs.Sched.Loader
import OsPAs.Sched.InPlace
import OsPAs.Sched.Rendering
import OsPAs.Sched.Policies
import OsPAs.Sched.Simulation
import OsPAs.Sched.Memory
import OsPAs.Sched.Layout
import OsPAs.Sched.MemoryLoad
import OsPAs.Sched.Contract
import OsPAs.Sched.Refinement
import OsPAs.Sched.Phases
import OsPAs.Sched.Placement
import OsPAs.Sched.Runs
import OsPAs.Sched.Conservation
import OsPAs.Sched.Blocked
import OsPAs.Sched.Bookkeeping
import OsPAs.Sched.Timing
import OsPAs.Sched.Deadlock
import OsPAs.Sched.Termination
import OsPAs.Sched.MemoryRuns
import OsPAs.Sched.LockOrder
import OsPAs.Sched.Wakeups
import OsPAs.Sched.Stranded
import OsPAs.Sched.Priorities
import OsPAs.Sched.Preference
import OsPAs.Sched.StrictPriority
import OsPAs.Sched.Requests
import OsPAs.Sched.Grants
import OsPAs.Sched.ServiceOrder
import OsPAs.Sched.NonPreemptive
import OsPAs.Sched.FirstCome
import OsPAs.Sched.Aging
import OsPAs.Sched.Boosts
import OsPAs.Sched.BoostLimit
import OsPAs.Sched.Ceiling
import OsPAs.Sched.DisjointWindows
import OsPAs.Sched.Inheritance
import OsPAs.Sched.Inversion
import OsPAs.Sched.ShortestTime
import OsPAs.Sched.BusyTime
import OsPAs.Sched.Jobs
import OsPAs.Sched.Optimality
import OsPAs.Sched.Sentinel
import OsPAs.Sched.Decommission
import OsPAs.Sched.Sequential
import OsPAs.Sched.RoundRobin
import OsPAs.Sched.Coincidences
import OsPAs.Sched.Isolation
import OsPAs.Sched.ResponseTime
import OsPAs.Sched.MemorySafety
import OsPAs.Vm.State
import OsPAs.Vm.Paging
import OsPAs.Vm.Tlb
import OsPAs.Vm.Mmu
import OsPAs.Vm.Tables
import OsPAs.Vm.Edits
import OsPAs.Vm.Steps
import OsPAs.Vm.Forks
import OsPAs.Vm.Pids
import OsPAs.Vm.Effects
import OsPAs.Vm.MapCounts
import OsPAs.Vm.Refusals
import OsPAs.Vm.Uninitialised
import OsPAs.Vm.Transparency
import OsPAs.Vm.Contents
import OsPAs.Vm.Ownership
import OsPAs.Vm.CopyOnWrite
import OsPAs.Vm.TlbCalls
import OsPAs.Vm.TlbShape
import OsPAs.Vm.Removal
import OsPAs.Vm.Duplicates
import OsPAs.Vm.Spelling
import OsPAs.Vm.Dumps
import OsPAs.Vm.Workload
import OsPAs.Shell.State
import OsPAs.Shell.Command
import OsPAs.Shell.Table
import OsPAs.Shell.Expansion
import OsPAs.Shell.Session
import OsPAs.Shell.Parser
import OsPAs.Shell.Shifting
import OsPAs.Shell.Bounds
import OsPAs.Shell.Substitution
import OsPAs.Shell.Memory
import OsPAs.Shell.Ownership
import OsPAs.Shell.Children
import OsPAs.Shell.MemorySafety
import OsPAs.Parsers
